import SchemaRoutes.Proofs.Schema.Traversal

/-! # The calls of a traversal

The calls of a visitor are written down in order. At every moment some nodes have been entered and
not left yet, each inside the next, and they alone decide what may be called: the next sub-schema of
the innermost one is entered, or that one is left. This holds for all calls, also for those of a
traversal that never ends.
-/

namespace SchemaRoutes.Traversal

inductive Call (α : Type) where
  | enter (ctx : Context) (node : Json) (decision : Decision)
  | leave (ctx : Context) (node : Json) (children : List (Slot × α)) (out : α)

/-- A node that has been entered and not left yet. -/
structure OpenNode (α : Type) where
  ctx : Context
  decision : Decision
  /-- What the sub-schemas left so far have given, under their paths. -/
  given : List (List Slot × α)

variable {σ α β γ : Type}

namespace OpenNode

def give (result : List Slot × α) : List (OpenNode α) → List (OpenNode α)
  | [] => []
  | o :: opens => { o with given := o.given ++ [result] } :: opens

/-- An enter opens a node. A leave closes the innermost one, and its output goes to the next. -/
def next (opens : List (OpenNode α)) : Call α → List (OpenNode α)
  | .enter ctx _ decision => ⟨ctx, decision, []⟩ :: opens
  | .leave ctx _ _ out => give (ctx.path, out) opens.tail

end OpenNode

def openAfter (calls : List (Call α)) : List (OpenNode α) := calls.foldl OpenNode.next []

/-- What may be called in a traversal of the schema after the calls before. -/
inductive Fits (schema : Json) (before : List (Call α)) : Call α → Prop where
  /-- The root is entered first and only then. It has no path and no parent. -/
  | root (decision : Decision) : before = [] → Fits schema before (.enter .root schema decision)
  /-- If the innermost open node is descended into, its next sub-schema is entered. The path goes on
  by the slot, and the parent is the node that was decided on, with all slots emptied. -/
  | child (o : OpenNode α) (opens : List (OpenNode α)) (ms : Members) (slot : Slot) (node : Json)
      (decision : Decision) : openAfter before = o :: opens → o.decision.opened? = some ms →
      ms.children[o.given.length]? = some (slot, node) →
      Fits schema before (.enter ⟨o.ctx.path ++ [slot], some ms.emptied⟩ node decision)
  /-- It is left with one output for each sub-schema, in order. -/
  | leave (o : OpenNode α) (opens : List (OpenNode α)) (ms : Members)
      (children : List (Slot × α)) (out : α) : openAfter before = o :: opens →
      o.decision.opened? = some ms → children.map Prod.fst = ms.children.map Prod.fst →
      o.given = children.map (fun c => (o.ctx.path ++ [c.1], c.2)) →
      Fits schema before (.leave o.ctx (.obj ms.emptied) children out)
  /-- If it is not descended into, it is left at once and without outputs. -/
  | leaveAtOnce (o : OpenNode α) (opens : List (OpenNode α)) (out : α) :
      openAfter before = o :: opens → o.decision.opened? = none → o.given = [] →
      Fits schema before (.leave o.ctx o.decision.node [] out)

/-- Calls in order, and the result with the state if they come to an end. -/
structure Log (σ α β : Type) where
  calls : List (Call α)
  result : Option (β × σ)

namespace Log

def bind (log : Log σ α β) (k : β → σ → Log σ α γ) : Log σ α γ :=
  match log.result with
  | none => ⟨log.calls, none⟩
  | some (b, s) => ⟨log.calls ++ (k b s).calls, (k b s).result⟩

def ofEnter (v : Visitor σ α) (ctx : Context) (node : Json) (s : σ) : Log σ α Decision :=
  let r := v.enter ctx node s
  ⟨[.enter ctx node r.1], some r⟩

def ofLeave (v : Visitor σ α) (ctx : Context) (node : Json) (children : List (Slot × α)) (s : σ) :
    Log σ α α :=
  let r := v.leave ctx node children s
  ⟨[.leave ctx node children r.1], some r⟩

def ofChildren (visit : Slot → Json → σ → Log σ α α) :
    List (Slot × Json) → σ → Log σ α (List (Slot × α))
  | [], s => ⟨[], some ([], s)⟩
  | (slot, child) :: rest, s =>
    (visit slot child s).bind fun out s =>
      (ofChildren visit rest s).bind fun outs s => ⟨[], some ((slot, out) :: outs, s)⟩

end Log

namespace Visitor

/-- The calls of a visit up to the first node that lies below so many levels. -/
def logWithin (v : Visitor σ α) : ℕ → Context → Json → σ → Log σ α α
  | 0, _, _, _ => ⟨[], none⟩
  | levels + 1, ctx, node, s =>
    (Log.ofEnter v ctx node s).bind fun decision s =>
      match decision.opened? with
      | some ms =>
        (Log.ofChildren
          (fun slot child => v.logWithin levels ⟨ctx.path ++ [slot], some ms.emptied⟩ child)
          ms.children s).bind fun outs s => Log.ofLeave v ctx (.obj ms.emptied) outs s
      | none => Log.ofLeave v ctx decision.node [] s

def recorded (v : Visitor σ α) : Visitor (σ × List (Call α)) α where
  enter ctx node := fun (s, calls) =>
    let (decision, s) := v.enter ctx node s
    (decision, s, calls ++ [.enter ctx node decision])
  leave ctx node children := fun (s, calls) =>
    let (out, s) := v.leave ctx node children s
    (out, s, calls ++ [.leave ctx node children out])

end Visitor

/-! ## Further levels -/

namespace Log

/-- The one log goes on where the other has been broken off. -/
def Begins (log log' : Log σ α β) : Prop :=
  log = log' ∨ log.result = none ∧ log.calls <+: log'.calls

variable {log log' : Log σ α β} {k k' : β → σ → Log σ α γ}

theorem prefix_bind (log : Log σ α β) (k : β → σ → Log σ α γ) :
    log.calls <+: (log.bind k).calls := by
  unfold Log.bind
  split
  · exact List.prefix_rfl
  · exact List.prefix_append _ _

theorem Begins.calls (h : log.Begins log') : log.calls <+: log'.calls := by
  rcases h with rfl | ⟨-, h⟩
  · exact List.prefix_rfl
  · exact h

theorem Begins.bind (h : log.Begins log') (hk : ∀ b s, (k b s).Begins (k' b s)) :
    (log.bind k).Begins (log'.bind k') := by
  rcases h with rfl | ⟨hr, hp⟩
  · unfold Log.bind
    split
    · exact .inl rfl
    · next b s _ =>
      rcases hk b s with he | ⟨hr, hp⟩
      · exact .inl (by rw [he])
      · exact .inr ⟨hr, List.prefix_append_right_inj _ |>.mpr hp⟩
  · have hb : log.bind k = ⟨log.calls, none⟩ := by simp only [Log.bind, hr]
    rw [hb]
    exact .inr ⟨rfl, hp.trans (prefix_bind log' k')⟩

theorem begins_ofChildren {visit visit' : Slot → Json → σ → Log σ α α}
    (h : ∀ slot child s, (visit slot child s).Begins (visit' slot child s))
    (children : List (Slot × Json)) (s : σ) :
    (ofChildren visit children s).Begins (ofChildren visit' children s) := by
  induction children generalizing s with
  | nil => exact .inl rfl
  | cons c rest ih => exact (h c.1 c.2 s).bind fun _ _ => (ih _).bind fun _ _ => .inl rfl

end Log

theorem Visitor.begins_logWithin (v : Visitor σ α) (levels : ℕ) (ctx : Context) (node : Json)
    (s : σ) : (v.logWithin levels ctx node s).Begins (v.logWithin (levels + 1) ctx node s) := by
  induction levels generalizing ctx node s with
  | zero => exact .inr ⟨rfl, List.nil_prefix⟩
  | succ levels ih =>
    refine Log.Begins.bind (.inl rfl) fun decision s => ?_
    split
    · exact (Log.begins_ofChildren (fun _ _ _ => ih _ _ _) _ _).bind fun _ _ => .inl rfl
    · exact .inl rfl

/-! ## Every call fits -/

variable {schema : Json} {before calls calls' : List (Call α)} {call : Call α}
  {v : Visitor σ α} {ctx : Context} {node : Json} {s : σ}

theorem openAfter_concat :
    openAfter (before ++ [call]) = OpenNode.next (openAfter before) call := by simp [openAfter]

def AllFit (schema : Json) (before calls : List (Call α)) : Prop :=
  ∀ earlier call later, calls = earlier ++ call :: later → Fits schema (before ++ earlier) call

theorem allFit_nil : AllFit schema before [] := by simp [AllFit]

theorem allFit_singleton (h : Fits schema before call) : AllFit schema before [call] := by
  intro earlier call' later he
  cases earlier with
  | nil =>
    obtain ⟨rfl, -⟩ := List.cons.inj he
    rwa [List.append_nil]
  | cons c earlier => simp at he

theorem AllFit.append (h : AllFit schema before calls)
    (h' : AllFit schema (before ++ calls) calls') : AllFit schema before (calls ++ calls') := by
  intro earlier call later he
  rcases List.append_eq_append_iff.mp he with ⟨middle, rfl, hm⟩ | ⟨middle, rfl, hm⟩
  · rw [← List.append_assoc]
    exact h' middle call later hm
  · cases middle with
    | nil =>
      rw [List.append_nil] at h'
      simpa using h' [] call later hm.symm
    | cons c middle =>
      obtain ⟨rfl, -⟩ := List.cons.inj hm
      exact h earlier call middle rfl

namespace Log

/-- All calls fit, and if they come to an end, the result and the open nodes are as said. -/
structure Ensures (schema : Json) (before : List (Call α)) (log : Log σ α β)
    (post : β → List (OpenNode α) → Prop) : Prop where
  fit : AllFit schema before log.calls
  post : ∀ r, log.result = some r → post r.1 (openAfter (before ++ log.calls))

namespace Ensures

variable {log : Log σ α β} {k : β → σ → Log σ α γ} {post : β → List (OpenNode α) → Prop}
  {post' : γ → List (OpenNode α) → Prop}

theorem bind (h : log.Ensures schema before post)
    (hk : ∀ b s before', post b (openAfter before') → (k b s).Ensures schema before' post') :
    (log.bind k).Ensures schema before post' := by
  unfold Log.bind
  split
  · exact ⟨h.fit, nofun⟩
  · next b s hr =>
    obtain ⟨hfit, hpost⟩ := hk b s (before ++ log.calls) (h.post _ hr)
    refine ⟨h.fit.append hfit, fun r hr => ?_⟩
    rw [← List.append_assoc]
    exact hpost r hr

theorem ofEnter (h : ∀ decision, Fits schema before (.enter ctx node decision)) :
    (Log.ofEnter v ctx node s).Ensures schema before fun decision opens =>
      opens = ⟨ctx, decision, []⟩ :: openAfter before where
  fit := allFit_singleton (h _)
  post := by
    rintro _ ⟨⟩
    exact openAfter_concat

theorem ofLeave {children : List (Slot × α)}
    (h : ∀ out, Fits schema before (.leave ctx node children out)) :
    (Log.ofLeave v ctx node children s).Ensures schema before fun out opens =>
      opens = OpenNode.give (ctx.path, out) (openAfter before).tail where
  fit := allFit_singleton (h _)
  post := by
    rintro _ ⟨⟩
    exact openAfter_concat

theorem ofChildren {visit : Slot → Json → σ → Log σ α α} {o : OpenNode α}
    {opens : List (OpenNode α)} {ms : Members} {rest : List (Slot × Json)}
    (hms : o.decision.opened? = some ms) (hrest : ms.children.drop o.given.length = rest)
    (ho : openAfter before = o :: opens)
    (hvisit : ∀ before slot child s, (∀ decision,
      Fits schema before (.enter ⟨o.ctx.path ++ [slot], some ms.emptied⟩ child decision)) →
      (visit slot child s).Ensures schema before fun out opens =>
        opens = OpenNode.give (o.ctx.path ++ [slot], out) (openAfter before)) :
    (Log.ofChildren visit rest s).Ensures schema before fun outs opens' =>
      outs.map Prod.fst = rest.map Prod.fst ∧ opens' =
        { o with given := o.given ++ outs.map fun c => (o.ctx.path ++ [c.1], c.2) } :: opens := by
  -- What is left of the children starts where as many have given something.
  induction rest generalizing before o s with
  | nil =>
    refine ⟨allFit_nil, ?_⟩
    rintro _ ⟨⟩
    simp [Log.ofChildren, ho]
  | cons c rest ih =>
    obtain ⟨slot, child⟩ := c
    have hnext : ms.children[o.given.length]? = some (slot, child) := by
      rw [← List.head?_drop, hrest, List.head?_cons]
    have hfirst := hvisit before slot child s fun decision =>
      .child o opens ms slot child decision ho hms hnext
    refine hfirst.bind fun out s before' hopens => ?_
    have ho' : openAfter before' =
        { o with given := o.given ++ [(o.ctx.path ++ [slot], out)] } :: opens := by
      rw [hopens, ho]
      rfl
    have hdrop : ms.children.drop (o.given ++ [(o.ctx.path ++ [slot], out)]).length = rest := by
      rw [List.length_append, List.length_singleton, ← List.drop_drop, hrest]
      rfl
    have hothers := ih (o := { o with given := o.given ++ [(o.ctx.path ++ [slot], out)] }) (s := s)
      hms hdrop ho' hvisit
    refine hothers.bind ?_
    rintro outs s before'' ⟨hslots, hopens⟩
    refine ⟨allFit_nil, ?_⟩
    rintro _ ⟨⟩
    simp [hslots, hopens]

theorem logWithin {levels : ℕ} (h : ∀ decision, Fits schema before (.enter ctx node decision)) :
    (v.logWithin levels ctx node s).Ensures schema before fun out opens =>
      opens = OpenNode.give (ctx.path, out) (openAfter before) := by
  induction levels generalizing before ctx node s with
  | zero => exact ⟨allFit_nil, nofun⟩
  | succ levels ih =>
    refine (ofEnter h).bind fun decision s before' hopens => ?_
    split
    · next ms hd =>
      refine (ofChildren hd rfl hopens fun _ _ _ _ h => ih h).bind ?_
      rintro outs s before'' ⟨hslots, hopens'⟩
      have hfits (out : α) : Fits schema before'' (.leave ctx (.obj ms.emptied) outs out) :=
        .leave _ _ ms outs out hopens' hd hslots (List.nil_append _)
      have hleave := ofLeave (v := v) (s := s) hfits
      rwa [hopens'] at hleave
    · next hd =>
      have hfits (out : α) : Fits schema before' (.leave ctx decision.node [] out) :=
        .leaveAtOnce _ _ out hopens hd rfl
      have hleave := ofLeave (v := v) (s := s) hfits
      rwa [hopens] at hleave

end Ensures

end Log

/-! ## The record of a traversal -/

namespace Visitor

variable {τ : Type} {w : Visitor τ α} {state : σ → List (Call α) → τ}

/-- A visitor that does as another one, whatever it makes of the calls in its own state. -/
structure Follows (w : Visitor τ α) (v : Visitor σ α) (state : σ → List (Call α) → τ) : Prop where
  enter : ∀ ctx node s calls, w.enter ctx node (state s calls) =
    let r := v.enter ctx node s
    (r.1, state r.2 (calls ++ [.enter ctx node r.1]))
  leave : ∀ ctx node children s calls, w.leave ctx node children (state s calls) =
    let r := v.leave ctx node children s
    (r.1, state r.2 (calls ++ [.leave ctx node children r.1]))

theorem follows_self (v : Visitor σ α) : v.Follows v fun s _ => s where
  enter _ _ _ _ := rfl
  leave _ _ _ _ _ := rfl

theorem follows_recorded (v : Visitor σ α) : v.recorded.Follows v Prod.mk where
  enter _ _ _ _ := rfl
  leave _ _ _ _ _ := rfl

def followed (state : σ → List (Call α) → τ) (log : Log σ α β) (calls : List (Call α)) :
    Option (β × τ) :=
  log.result.map fun r => (r.1, state r.2 (calls ++ log.calls))

theorem followed_bind {log : Log σ α β} {k : β → σ → Log σ α γ} {g : β × τ → Option (γ × τ)}
    (h : ∀ b s calls, g (b, state s calls) = followed state (k b s) calls)
    (calls : List (Call α)) :
    followed state (log.bind k) calls = (followed state log calls).bind g := by
  unfold Log.bind followed
  split
  · next hr => simp only [hr, Option.map_none, Option.bind_none]
  · next b s hr =>
    simp only [hr, Option.map_some, Option.bind_some, h, followed, List.append_assoc]

theorem visitAll_of_follows {visit : Slot → Json → τ → Option (α × τ)}
    {log : Slot → Json → σ → Log σ α α}
    (h : ∀ slot child s calls,
      visit slot child (state s calls) = followed state (log slot child s) calls)
    (children : List (Slot × Json)) (s : σ) (calls : List (Call α)) :
    visitAll visit children (state s calls) =
      followed state (Log.ofChildren log children s) calls := by
  induction children generalizing s calls with
  | nil => simp [visitAll, Log.ofChildren, followed]
  | cons c rest ih =>
    rw [visitAll_cons, Log.ofChildren, h, followed_bind]
    intro out s calls
    rw [ih, followed_bind]
    intro outs s calls
    simp [followed]

theorem followed_ofEnter_bind (k : Decision → σ → Log σ α γ) (calls : List (Call α)) :
    followed state ((Log.ofEnter v ctx node s).bind k) calls =
      let r := v.enter ctx node s
      followed state (k r.1 r.2) (calls ++ [.enter ctx node r.1]) := by
  simp [followed, Log.bind, Log.ofEnter]

theorem Follows.leave_eq (h : w.Follows v state) (children : List (Slot × α))
    (calls : List (Call α)) : some (w.leave ctx node children (state s calls)) =
      followed state (Log.ofLeave v ctx node children s) calls := by
  rw [h.leave]
  rfl

/-- A follower makes the same calls. -/
theorem Follows.runWithin (h : w.Follows v state) (levels : ℕ) (ctx : Context) (node : Json)
    (s : σ) (calls : List (Call α)) : w.runWithin levels ctx node (state s calls) =
      followed state (v.logWithin levels ctx node s) calls := by
  induction levels generalizing ctx node s calls with
  | zero => rfl
  | succ levels ih =>
    have henter := h.enter ctx node s calls
    rw [logWithin, followed_ofEnter_bind]
    cases hd : (v.enter ctx node s).1.opened? with
    | none =>
      rw [runWithin_of_closed (by rw [henter]; exact hd), henter]
      simp only [hd]
      exact h.leave_eq [] _
    | some ms =>
      rw [runWithin_of_opened (by rw [henter]; exact hd), henter]
      simp only [hd]
      rw [visitAll_of_follows fun slot child => ih ⟨ctx.path ++ [slot], some ms.emptied⟩ child,
        followed_bind (g := fun outs => some (w.leave ctx (.obj ms.emptied) outs.1 outs.2))
          fun outs s calls => h.leave_eq outs calls, Option.map_eq_bind]
      rfl

end Visitor

/-- In a traversal that ends, a record of the calls brings the same result and all calls in order.
Every call of a traversal, whether it ends or not, fits what has been called before, and after the
last one no node is open. -/
theorem calls_of_traversal (v : Visitor σ α) (schema : Json) (s : σ) (levels : ℕ) :
    let calls := (v.logWithin levels .root schema s).calls
    v.recorded.runWithin levels .root schema (s, []) =
      (v.runWithin levels .root schema s).map (fun r => (r.1, r.2, calls)) ∧
    calls <+: (v.logWithin (levels + 1) .root schema s).calls ∧
    (∀ before call later, calls = before ++ call :: later → Fits schema before call) ∧
    ((v.runWithin levels .root schema s).isSome → openAfter calls = []) := by
  intro calls
  have hroot : Log.Ensures schema [] (v.logWithin levels .root schema s) _ :=
    Log.Ensures.logWithin fun decision => .root decision rfl
  have hrun := v.follows_self.runWithin levels .root schema s []
  have hrecorded := v.follows_recorded.runWithin levels .root schema s []
  rw [Visitor.followed] at hrun hrecorded
  refine ⟨?_, (v.begins_logWithin levels _ _ _).calls, hroot.fit, fun hends => ?_⟩
  · rw [hrecorded, hrun, Option.map_map]
    rfl
  · rw [hrun, Option.isSome_map] at hends
    obtain ⟨r, hr⟩ := Option.isSome_iff_exists.mp hends
    exact hroot.post r hr

theorem calls_of_replacement :
    let v : Visitor Unit ℕ :=
      { enter := fun _ node s => match node.get? "hidden", node.get? "use" with
          | some _, _ => (.skip node, s)
          | none, some value => (.descend value, s)
          | none, none => (.descend node, s)
        leave := fun _ _ children s => (children.length, s) }
    let secret : Json := .obj [("hidden", .bool true), ("not", .obj [])]
    let shown : Json := .obj [("use", .obj [("not", .obj [])])]
    let schema : Json := .obj [("properties", .obj [("a", secret), ("b", shown)])]
    let below : Members := [("properties", .obj [("a", .null), ("b", .null)])]
    let a : Context := ⟨[.property "a"], some below⟩
    let b : Context := ⟨[.property "b"], some below⟩
    let negated : Context := ⟨[.property "b", .single "not"], some [("not", .null)]⟩
    let calls : List (Call ℕ) :=
      [.enter .root schema (.descend schema), .enter a secret (.skip secret),
        .leave a secret [] 0, .enter b shown (.descend (.obj [("not", .obj [])])),
        .enter negated (.obj []) (.descend (.obj [])), .leave negated (.obj []) [] 0,
        .leave b (.obj [("not", .null)]) [(.single "not", 0)] 1,
        .leave .root (.obj below) [(.property "a", 0), (.property "b", 1)] 2]
    (v.logWithin 3 .root schema ()).calls = calls ∧ openAfter calls = [] ∧
      Fits schema (calls.take 6) (.leave b (.obj [("not", .null)]) [(.single "not", 0)] 1) := by
  intro v secret shown schema below a b negated calls
  obtain ⟨-, -, hfit, hclosed⟩ := calls_of_traversal v schema () 3
  exact ⟨rfl, hclosed rfl, hfit _ _ (calls.drop 7) rfl⟩

end SchemaRoutes.Traversal
