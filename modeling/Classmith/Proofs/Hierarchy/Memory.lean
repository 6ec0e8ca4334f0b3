import Classmith.Proofs.Hierarchy.Closures

/-!
# What queries remember

A resolver remembers the classes it has looked up and the closures it has completed, also those it
completed on the way to a failure. None of it shows: whatever has been asked before, a query answers as
it does when asked first.

A closure is remembered only once everything above its class has been visited, so no class that is
remembered with one has a cycle or an unknown name above it. A search that meets such a class again is not
on a path that started above it, and would complete the same closure.
-/
namespace Classmith

namespace Plain

/-- Whether a walk along superclasses meets the target, found without remembering anything. -/
def climb (h : Hierarchy) (target : String) (remaining : List String) (current : ClassInfo) :
    Except Error Bool :=
  if current.name = target then return true
  else current.superName.elim (return false) fun above => do
    let next ← resolve h above
    if _hmem : above ∈ remaining then climb h target (without above remaining) next
    else throw (.cyclic above)
termination_by remaining.length
decreasing_by exact length_without_lt _hmem

def isSubtype (h : Hierarchy) (super sub : String) : Except Error Bool := do
  let target ← resolve h super
  if target.isInterface then
    let closure ← collect h h.names sub
    return closure.contains target.name
  else
    let start ← resolve h sub
    climb h target.name h.names start

/-- Moves the second class up until the two are comparable, without remembering anything. -/
def meet (h : Hierarchy) (a : ClassInfo) (remaining : List String) (b : ClassInfo) :
    Except Error ClassInfo := do
  if a.name = ClassInfo.rootName then return a
  else if b.name = ClassInfo.rootName then return b
  else if ← isSubtype h a.name b.name then return a
  else if ← isSubtype h b.name a.name then return b
  else if a.isInterface || b.isInterface then resolve h ClassInfo.rootName
  else
    let above := b.superName.getD ClassInfo.rootName
    let next ← resolve h above
    if _hmem : above ∈ remaining then meet h a (without above remaining) next
    else throw (.cyclic above)
termination_by remaining.length
decreasing_by exact length_without_lt _hmem

def commonSuperclass (h : Hierarchy) (a b : String) : Except Error ClassInfo := do
  let a ← resolve h a
  let b ← resolve h b
  meet h a h.names b

end Plain

/-- What is remembered is true of the hierarchy: the classes are those that it knows, and the closures
are complete. -/
structure Memo.Faithful (memo : Memo) (h : Hierarchy) : Prop where
  infos : ∀ name info, memo.infos.get? name = some info → h.lookup? name = some info
  closures : ∀ name s, memo.closures.get? name = some s →
    h.Grounded name ∧ ∀ i, s.contains i = true ↔ h.Implements name i

theorem Memo.faithful_empty (h : Hierarchy) : Memo.empty.Faithful h where
  infos _ _ hget := by simp [Memo.empty] at hget
  closures _ _ hget := by simp [Memo.empty] at hget

namespace Hierarchy

/-- From everything that may be remembered the query gives the same answer, and what it remembers then is
true again. -/
def Answers (h : Hierarchy) {α : Type} (q : Query α) (answer : Except Error α) : Prop :=
  ∀ memo : Memo, memo.Faithful h → (q memo).1 = answer ∧ (q memo).2.Faithful h

section Answers

variable {h : Hierarchy} {α β : Type}

theorem answers_pure (a : α) : h.Answers (pure a : Query α) (.ok a) := fun _ hmemo => ⟨rfl, hmemo⟩

theorem answers_throw (e : Error) : h.Answers (throw e : Query α) (.error e) :=
  fun _ hmemo => ⟨rfl, hmemo⟩

theorem answers_bind {q : Query α} {f : α → Query β} {x : Except Error α} {y : α → Except Error β}
    (hq : h.Answers q x) (hf : ∀ a, x = .ok a → h.Answers (f a) (y a)) :
    h.Answers (q >>= f) (x >>= y) := by
  intro memo hmemo
  obtain ⟨hanswer, hafter⟩ := hq memo hmemo
  have hrun : (q >>= f) memo = ExceptT.bindCont f (q memo).1 (q memo).2 := rfl
  rw [hrun, hanswer]
  cases x with
  | error e => exact ⟨rfl, hafter⟩
  | ok a => exact hf a rfl _ hafter

/-- A query may depend on what is remembered in ways that do not change its answer. -/
theorem answers_get {f : Memo → Query β} {y : Except Error β}
    (hf : ∀ memo, memo.Faithful h → h.Answers (f memo) y) : h.Answers (get >>= f) y :=
  fun memo hmemo => hf memo hmemo memo hmemo

theorem answers_foldlM {f : β → α → Query β} {g : β → α → Except Error β} {l : List α}
    (hstep : ∀ b, ∀ a ∈ l, h.Answers (f b a) (g b a)) (start : β) :
    h.Answers (l.foldlM f start) (l.foldlM g start) := by
  induction l generalizing start with
  | nil => exact answers_pure start
  | cons a rest ih =>
    rw [List.foldlM_cons, List.foldlM_cons]
    refine answers_bind (hstep start a (by simp)) fun b _ => ?_
    exact ih (fun b a ha => hstep b a (List.mem_cons_of_mem _ ha)) b

theorem answers_closure {q : String → Query NameSet} {x : String → Except Error NameSet}
    {info : ClassInfo} (hq : ∀ above ∈ info.supertypes, h.Answers (q above) (x above)) :
    h.Answers (info.closure q) (info.closure x) := by
  refine answers_bind (answers_foldlM ?_ _) fun declared _ => ?_
  · intro closure above habove
    refine answers_bind (hq above (ClassInfo.mem_supertypes.mpr (Or.inr habove))) fun _ _ => ?_
    exact answers_pure _
  · cases hsuper : info.superName with
    | none => exact answers_pure declared
    | some above =>
      refine answers_bind (hq above (ClassInfo.mem_supertypes.mpr (Or.inl hsuper))) fun _ _ => ?_
      exact answers_pure _

/-! ## Looking up and climbing -/

theorem answers_resolve (name : String) : h.Answers (h.resolve name) (Plain.resolve h name) := by
  refine answers_get fun memo hmemo => ?_
  cases hget : memo.infos.get? name with
  | some info =>
    rw [Plain.resolve_eq_ok.mpr (hmemo.infos name info hget)]
    exact answers_pure info
  | none =>
    cases hname : h.lookup? name with
    | none =>
      rw [Plain.resolve, hname]
      exact answers_throw _
    | some info =>
      rw [Plain.resolve_eq_ok.mpr hname]
      intro memo hmemo
      refine ⟨rfl, ⟨?_, hmemo.closures⟩⟩
      intro other found hfound
      change (memo.infos.insert name info).get? other = some found at hfound
      rw [Table.get?_insert] at hfound
      split at hfound
      · rename_i hother
        rw [hother, hname, hfound]
      · exact hmemo.infos other found hfound

/-- The names that resolve at first and those remembered are the names that can resolve. -/
theorem answers_resolvable {f : List String → Query β} {y : Except Error β}
    (hf : ∀ remaining, (∀ name, name ∈ remaining ↔ name ∈ h.names) → h.Answers (f remaining) y) :
    h.Answers (h.resolvable >>= f) y := by
  have hresolvable : h.resolvable >>= f = get >>= fun memo => f (h.names ++ memo.infos.keys) := by
    rw [resolvable, bind_assoc]
    refine bind_congr fun memo => ?_
    rw [pure_bind]
  rw [hresolvable]
  refine answers_get fun memo hmemo => hf _ fun name => ?_
  rw [List.mem_append, or_iff_left_iff_imp, Table.mem_keys_iff, Table.contains,
    Option.isSome_iff_exists]
  rintro ⟨info, hget⟩
  exact mem_names_of_lookup? (by rw [hmemo.infos name info hget]; rfl)

theorem answers_climb {target : String} {remaining remaining' : List String} {current : ClassInfo}
    (hsame : ∀ name, name ∈ remaining ↔ name ∈ remaining') :
    h.Answers (h.climb target remaining current) (Plain.climb h target remaining' current) := by
  induction remaining using without_induction generalizing remaining' current with
  | step remaining ih =>
    rw [Hierarchy.climb, Plain.climb]
    split
    · exact answers_pure true
    · cases current.superName with
      | none => exact answers_pure false
      | some above =>
        refine answers_bind (answers_resolve above) fun next _ => ?_
        by_cases hmem : above ∈ remaining
        · rw [dif_pos hmem, dif_pos ((hsame above).mp hmem)]
          refine ih above hmem fun name => ?_
          rw [mem_without, mem_without, hsame]
        · rw [dif_neg hmem, dif_neg fun hmem' => hmem ((hsame above).mpr hmem')]
          exact answers_throw _

/-! ## Searching for interfaces -/

/-- Looks a class up and puts its interfaces together. -/
def search (h : Hierarchy) (remaining : List String) (name : String) : Query NameSet := do
  let info ← h.resolve name
  if name ∈ remaining then
    let closure ← info.closure (h.collect (without name remaining))
    modify fun memo => { memo with closures := memo.closures.insert name closure }
    return closure
  else throw (.cyclic name)

theorem collect_eq (h : Hierarchy) (remaining : List String) (name : String) :
    h.collect remaining name =
      get >>= fun memo => (memo.closures.get? name).elim (h.search remaining name) pure := by
  rw [Hierarchy.collect]
  refine bind_congr fun memo => ?_
  cases memo.closures.get? name with
  | some closure => rfl
  | none =>
    refine bind_congr fun info => ?_
    by_cases hmem : name ∈ remaining
    · simp only [dif_pos hmem, if_pos hmem]
      rw [ClassInfo.closure, bind_assoc]
      refine bind_congr fun declared => ?_
      cases info.superName with
      | none => rfl
      | some above => rw [Option.elim_some, bind_assoc]
    · simp only [dif_neg hmem, if_neg hmem]

/-- The search has come to the class from every known class that it may not visit any more. -/
def OnPath (h : Hierarchy) (remaining : List String) (name : String) : Prop :=
  ∀ other, (h.lookup? other).isSome → other ∉ remaining →
    Relation.TransGen h.DirectlyBelow other name

theorem OnPath.step {remaining : List String} {name next : String} (hpath : h.OnPath remaining name)
    (hnext : h.DirectlyBelow name next) : h.OnPath (without name remaining) next := by
  intro other hknown hnot
  by_cases hother : other = name
  · subst hother
    exact .single hnext
  · have hmem : other ∉ remaining := fun hmem => hnot (mem_without.mpr ⟨hmem, hother⟩)
    exact (hpath other hknown hmem).tail hnext

/-- From a grounded class on its path the search may visit everything above. -/
theorem OnPath.mem_of_grounded {remaining : List String} {name above : String}
    (hpath : h.OnPath remaining name) (hground : h.Grounded name) (habove : h.Below name above) :
    above ∈ remaining := by
  by_cases hmem : above ∈ remaining
  · exact hmem
  · have hback := hpath above (hground.known above habove) hmem
    exact absurd (hback.trans_left habove) (hground.acyclic above habove)

theorem collect_of_grounded {remaining : List String} {name : String} {s : NameSet}
    (hpath : h.OnPath remaining name) (hground : h.Grounded name)
    (hs : ∀ i, s.contains i = true ↔ h.Implements name i) :
    Plain.collect h remaining name = .ok s := by
  obtain ⟨found, hfound⟩ := Plain.exists_collect hground fun above habove =>
    hpath.mem_of_grounded hground habove
  obtain ⟨-, -, himplements⟩ := Plain.collect_ok hfound
  have hsame : found = s := NameSet.ext_contains fun i => by rw [himplements, hs]
  rw [hfound, hsame]

/-- A closure that a search has completed may be remembered, wherever the search started. -/
theorem answers_remember {remaining : List String} {name : String} {s : NameSet}
    (hs : Plain.collect h remaining name = .ok s) :
    h.Answers (do
      modify fun memo => { memo with closures := memo.closures.insert name s }
      return s : Query NameSet) (.ok s) := by
  intro memo hmemo
  obtain ⟨-, hground, himplements⟩ := Plain.collect_ok hs
  refine ⟨rfl, ⟨hmemo.infos, ?_⟩⟩
  intro other found hfound
  change (memo.closures.insert name s).get? other = some found at hfound
  rw [Table.get?_insert] at hfound
  split at hfound
  · rename_i hother
    cases hfound
    rw [hother]
    exact ⟨hground, himplements⟩
  · exact hmemo.closures other found hfound

theorem answers_collect {remaining remaining' : List String} {name : String}
    (hsame : ∀ name, name ∈ remaining ↔ name ∈ remaining') (hpath : h.OnPath remaining' name) :
    h.Answers (h.collect remaining name) (Plain.collect h remaining' name) := by
  induction remaining using without_induction generalizing remaining' name with
  | step remaining ih =>
    rw [collect_eq]
    refine answers_get fun memo hmemo => ?_
    cases hget : memo.closures.get? name with
    | some s =>
      obtain ⟨hground, hs⟩ := hmemo.closures name s hget
      rw [collect_of_grounded hpath hground hs]
      exact answers_pure s
    | none =>
      rw [Option.elim_none, search, Plain.collect]
      refine answers_bind (answers_resolve name) fun info hinfo => ?_
      have hname := Plain.resolve_eq_ok.mp hinfo
      by_cases hmem : name ∈ remaining
      · have hmem' := (hsame name).mp hmem
        rw [if_pos hmem, dif_pos hmem']
        have hclosure : h.Answers (info.closure (h.collect (without name remaining)))
            (info.closure (Plain.collect h (without name remaining'))) := by
          apply answers_closure
          intro above habove
          refine ih name hmem (fun other => ?_) (hpath.step ⟨info, hname, habove⟩)
          rw [mem_without, mem_without, hsame]
        rw [← bind_pure (info.closure (Plain.collect h (without name remaining')))]
        refine answers_bind hclosure fun s hs => ?_
        have hcomplete : Plain.collect h remaining' name = .ok s := by
          rw [Plain.collect_of_mem hname hmem', hs]
        exact answers_remember hcomplete
      · rw [if_neg hmem, dif_neg fun hmem' => hmem ((hsame name).mpr hmem')]
        exact answers_throw _

theorem onPath_of_names {remaining : List String}
    (hall : ∀ name, name ∈ remaining ↔ name ∈ h.names) (name : String) : h.OnPath remaining name :=
  fun other hknown hnot => absurd ((hall other).mpr (mem_names_of_lookup? hknown)) hnot

/-! ## The queries -/

theorem answers_allInterfaces (name : String) :
    h.Answers (h.allInterfaces name) (Plain.collect h h.names name) :=
  answers_resolvable fun _ hall =>
    answers_collect hall (onPath_of_names (fun _ => Iff.rfl) name)

theorem answers_isSubtype (super sub : String) :
    h.Answers (h.isSubtype super sub) (Plain.isSubtype h super sub) := by
  refine answers_bind (answers_resolve super) fun target _ => ?_
  split
  · exact answers_bind (answers_allInterfaces sub) fun closure _ => answers_pure _
  · refine answers_bind (answers_resolve sub) fun start _ => ?_
    exact answers_resolvable fun remaining hall => answers_climb hall

theorem answers_meet {a b : ClassInfo} {remaining remaining' : List String}
    (hsame : ∀ name, name ∈ remaining ↔ name ∈ remaining') :
    h.Answers (h.meet a remaining b) (Plain.meet h a remaining' b) := by
  induction remaining using without_induction generalizing remaining' b with
  | step remaining ih =>
    rw [Hierarchy.meet, Plain.meet]
    split
    · exact answers_pure a
    split
    · exact answers_pure b
    refine answers_bind (answers_isSubtype a.name b.name) fun above _ => ?_
    split
    · exact answers_pure a
    refine answers_bind (answers_isSubtype b.name a.name) fun below _ => ?_
    split
    · exact answers_pure b
    split
    · exact answers_resolve _
    refine answers_bind (answers_resolve _) fun next _ => ?_
    by_cases hmem : b.superName.getD ClassInfo.rootName ∈ remaining
    · rw [dif_pos hmem, dif_pos ((hsame _).mp hmem)]
      refine ih _ hmem fun name => ?_
      rw [mem_without, mem_without, hsame]
    · rw [dif_neg hmem, dif_neg fun hmem' => hmem ((hsame _).mpr hmem')]
      exact answers_throw _

theorem answers_commonSuperclass (a b : String) :
    h.Answers (h.commonSuperclass a b) (Plain.commonSuperclass h a b) := by
  refine answers_bind (answers_resolve a) fun a _ => ?_
  refine answers_bind (answers_resolve b) fun b _ => ?_
  exact answers_resolvable fun remaining hall => answers_meet hall

theorem answers_invalidate : h.Answers invalidate (.ok ()) :=
  fun _ _ => ⟨rfl, Memo.faithful_empty h⟩

end Answers

/-! ## Sessions -/

/-- Something that a resolver can be asked. -/
inductive Call where
  | resolve (name : String)
  | isSubtype (super sub : String)
  | allInterfaces (name : String)
  | commonSuperclass (a b : String)
  | invalidate
deriving DecidableEq, Repr

inductive Answer where
  | info (info : ClassInfo)
  | truth (holds : Bool)
  | names (names : NameSet)
  | done

def serve (h : Hierarchy) : Call → Query Answer
  | .resolve name => do return .info (← h.resolve name)
  | .isSubtype super sub => do return .truth (← h.isSubtype super sub)
  | .allInterfaces name => do return .names (← h.allInterfaces name)
  | .commonSuperclass a b => do return .info (← h.commonSuperclass a b)
  | .invalidate => do
    invalidate
    return .done

/-- The answers of one resolver to calls in their order, and what it remembers after them. -/
def session (h : Hierarchy) : List Call → Memo → List (Except Error Answer) × Memo
  | [], memo => ([], memo)
  | call :: rest, memo =>
    let now := h.serve call memo
    let later := h.session rest now.2
    (now.1 :: later.1, later.2)

/-- What a new resolver answers after it has been asked other things. -/
def answerAfter (h : Hierarchy) (earlier : List Call) {α : Type} (q : Query α) : Except Error α :=
  (q (h.session earlier Memo.empty).2).1

theorem exists_answers_serve (h : Hierarchy) (call : Call) : ∃ answer, h.Answers (h.serve call) answer := by
  cases call with
  | resolve name => exact ⟨_, answers_bind (answers_resolve name) fun _ _ => answers_pure _⟩
  | isSubtype super sub =>
    exact ⟨_, answers_bind (answers_isSubtype super sub) fun _ _ => answers_pure _⟩
  | allInterfaces name => exact ⟨_, answers_bind (answers_allInterfaces name) fun _ _ => answers_pure _⟩
  | commonSuperclass a b =>
    exact ⟨_, answers_bind (answers_commonSuperclass a b) fun _ _ => answers_pure _⟩
  | invalidate => exact ⟨_, answers_bind answers_invalidate fun _ _ => answers_pure _⟩

/-- Whatever is asked, what is remembered stays true of the hierarchy. -/
theorem faithful_session {h : Hierarchy} (calls : List Call) {memo : Memo} (hmemo : memo.Faithful h) :
    (h.session calls memo).2.Faithful h := by
  induction calls generalizing memo with
  | nil => exact hmemo
  | cons call rest ih =>
    obtain ⟨answer, hanswer⟩ := h.exists_answers_serve call
    exact ih (hanswer memo hmemo).2

theorem Answers.answerAfter {h : Hierarchy} {α : Type} {q : Query α} {answer : Except Error α}
    (hq : h.Answers q answer) (earlier : List Call) : h.answerAfter earlier q = answer :=
  (hq _ (faithful_session earlier (Memo.faithful_empty h))).1

/-- Each call of a session is answered as a new resolver answers it, with a value or with an error. -/
theorem memory_is_invisible (h : Hierarchy) (calls : List Call) :
    (h.session calls Memo.empty).1 = calls.map fun call => h.answerAfter [] (h.serve call) := by
  suffices hall : ∀ memo : Memo, memo.Faithful h →
      (h.session calls memo).1 = calls.map fun call => h.answerAfter [] (h.serve call) from
    hall Memo.empty (Memo.faithful_empty h)
  induction calls with
  | nil => exact fun memo hmemo => rfl
  | cons call rest ih =>
    intro memo hmemo
    obtain ⟨answer, hanswer⟩ := h.exists_answers_serve call
    have hnow : (h.serve call memo).1 = answer := (hanswer memo hmemo).1
    have hfirst : h.answerAfter [] (h.serve call) = answer := hanswer.answerAfter []
    have hlater := ih (h.serve call memo).2 (hanswer memo hmemo).2
    calc (h.session (call :: rest) memo).1
        = (h.serve call memo).1 :: (h.session rest (h.serve call memo).2).1 := rfl
      _ = (call :: rest).map fun call => h.answerAfter [] (h.serve call) := by
          rw [hnow, hlater, List.map_cons, hfirst]

end Hierarchy

end Classmith
