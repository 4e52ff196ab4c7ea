/-! # Messages -/

namespace SchemaRoutes.Text

/-- A summary with its detail, if there is one. -/
def withDetail (summary : String) (detail? : Option String) : String :=
  match detail? with
  | some detail => summary ++ ": " ++ detail
  | none => summary

end SchemaRoutes.Text
