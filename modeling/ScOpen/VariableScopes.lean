import ScOpen.StoreRuns
import Mathlib.Logic.Function.Basic

/-!
# The scopes of the variables

What the store is for: a variable belongs to a label, to a program or to the default program. A name
is looked up in this order; an assignment writes the label's variable where there is one, else the
program's; a local variable is the label's and a global one the default program's. Puts and gets
on the sorted array agree with this on the full names.
-/

namespace ScOpen

/-! ## The scopes -/

/-- The values of the variables by their full names. -/
abbrev Scopes : Type := Bytes → Option Bytes

inductive Scope where
  | user | userLocal | userGlobal
  deriving DecidableEq

def programFull (program name : Bytes) : Bytes := cstr "(" ++ program ++ cstr ")" ++ name

def labelFull (pos : Position) (name : Bytes) : Bytes :=
  cstr "(" ++ pos.program ++ cstr "." ++ pos.label ++ cstr ")" ++ name

def Scopes.Labelled (m : Scopes) (pos : Position) (name : Bytes) : Prop :=
  pos.label ≠ [] ∧ (m (labelFull pos name)).isSome

instance (m : Scopes) (pos : Position) (name : Bytes) : Decidable (m.Labelled pos name) :=
  inferInstanceAs (Decidable (_ ∧ _))

def Scopes.get (m : Scopes) (pos : Position) (name : Bytes) : Option Bytes :=
  if m.Labelled pos name then m (labelFull pos name)
  else if (m (programFull pos.program name)).isSome then m (programFull pos.program name)
  else m (programFull defaultProgram name)

def Scopes.target (m : Scopes) (pos : Position) (name : Bytes) : Scope → Bytes
  | .user =>
      if m.Labelled pos name then labelFull pos name else programFull pos.program name
  | .userLocal =>
      if pos.label ≠ [] then labelFull pos name else programFull pos.program name
  | .userGlobal => programFull defaultProgram name

def Scopes.put (m : Scopes) (pos : Position) (name value : Bytes) (scope : Scope) : Scopes :=
  Function.update m (m.target pos name scope) (some value)

/-! ## Puts and gets -/

inductive Access where
  | put (pos : Position) (name value : Bytes) (length : ℕ) (scope : Scope)
  | get (pos : Position) (name : Bytes) (scope : Scope)

def Scope.type : Scope → VarTypes
  | .user => .user
  | .userLocal => .userLocal
  | .userGlobal => .userGlobal

def Access.position : Access → Position
  | .put pos _ _ _ _ => pos
  | .get pos _ _ => pos

def Access.name : Access → Bytes
  | .put _ name _ _ _ => name
  | .get _ name _ => name

def runAccesses (lib : StoreLibrary) : Store → List Access → Option (Store × List (Option Bytes))
  | st, [] => some (st, [])
  | st, .put pos name value length scope :: as =>
      (variablePut lib st pos name value length scope.type).bind fun st' => runAccesses lib st' as
  | st, .get pos name scope :: as =>
      (runAccesses lib st as).map fun r => (r.1, variableGet lib st pos name scope.type :: r.2)

def Scopes.runAccesses : Scopes → List Access → Scopes × List (Option Bytes)
  | m, [] => (m, [])
  | m, .put pos name value length scope :: as =>
      (m.put pos name (putValue value length) scope).runAccesses as
  | m, .get pos name _ :: as =>
      ((m.runAccesses as).1, m.get pos name :: (m.runAccesses as).2)

def values (st : Store) : Scopes := fun n => (entry st n).map Variable.value

/-- Where the program can stand once it is loaded: with nothing stored there is neither a label nor
the start of a program. -/
def Access.Loaded (st : Store) (a : Access) : Prop := st = [] → a.position = topLevel

/-- None of the variables the name can stand for is a reference or a constant. -/
def Access.Plain (st : Store) (a : Access) : Prop :=
  ∀ n v, n = labelFull a.position a.name ∨ n = programFull a.position.program a.name ∨
    n = programFull defaultProgram a.name → entry st n = some v →
    v.type ≠ .userRef ∧ v.type ≠ .userDefine

/-! ## The array agrees with the scopes -/

section

variable {lib : StoreLibrary} {st : Store}

theorem programKey_scope (scope : Scope) (program name : Bytes) :
    programKey scope.type program name = programFull program name := by
  cases scope <;> rfl

theorem labelKey_scope (scope : Scope) (pos : Position) (name : Bytes) :
    labelKey scope.type pos name = labelFull pos name := by
  cases scope <;> rfl

theorem values_isSome (n : Bytes) : (values st n).isSome ↔ (entry st n).isSome := by
  rw [values, Option.isSome_map]

theorem target_unlabelled {m : Scopes} {pos : Position} {name : Bytes}
    (h : ¬ m.Labelled pos name) :
    m.target pos name .user = programFull pos.program name := if_neg h

theorem putName_scope {pos : Position} (name : Bytes) (scope : Scope)
    (hloaded : st = [] → pos = topLevel) :
    putName st pos name scope.type = (values st).target pos name scope := by
  unfold putName
  simp only [programKey_scope, labelKey_scope]
  by_cases hnil : st = []
  · rw [if_pos hnil, hloaded hnil]
    have hnot : ¬ (values st).Labelled topLevel name := fun h => h.1 rfl
    cases scope with
    | user => exact (target_unlabelled hnot).symm
    | userLocal => rfl
    | userGlobal => rfl
  rw [if_neg hnil]
  by_cases hlabel : pos.label = []
  · have hnot : ¬ (values st).Labelled pos name := fun h => h.1 hlabel
    rw [if_pos hlabel]
    cases scope with
    | user => exact (target_unlabelled hnot).symm
    | userLocal => exact (if_neg (not_not.2 hlabel)).symm
    | userGlobal => rfl
  rw [if_neg hlabel]
  cases scope with
  | user =>
      have hiff : (Scope.user.type = .userLocal ∨ Scope.user.type = .userRef ∨
          (entry st (labelFull pos name)).isSome) ↔ (values st).Labelled pos name := by
        rw [Scopes.Labelled, values_isSome]
        constructor
        · rintro (h | h | h)
          · cases h
          · cases h
          · exact ⟨hlabel, h⟩
        · exact fun h => .inr (.inr h.2)
      have hglobal : Scope.user.type ≠ .userGlobal := by decide
      rw [if_neg hglobal]
      exact if_congr hiff rfl rfl
  | userLocal => exact (if_pos hlabel).symm
  | userGlobal => rfl

theorem target_names (m : Scopes) (pos : Position) (name : Bytes) (scope : Scope) :
    m.target pos name scope = labelFull pos name ∨
      m.target pos name scope = programFull pos.program name ∨
      m.target pos name scope = programFull defaultProgram name := by
  cases scope with
  | user =>
      by_cases h : m.Labelled pos name
      · exact .inl (if_pos h)
      · exact .inr (.inl (if_neg h))
  | userLocal =>
      by_cases h : pos.label ≠ []
      · exact .inl (if_pos h)
      · exact .inr (.inl (if_neg h))
  | userGlobal => exact .inr (.inr rfl)

theorem sign_of_full {v : Variable} {pos : Position} {name n : Bytes} (hst : Ordered lib st)
    (hn : n = labelFull pos name ∨ n = programFull pos.program name ∨
      n = programFull defaultProgram name) (h : entry st n = some v) : v.type ≠ .label := by
  obtain ⟨hmem, hname, hne⟩ := entry_mem h
  have hhead : n.head? = some (chr '(') := by
    rcases hn with rfl | rfl | rfl <;> rfl
  have hsign := hst.signed v hmem (hname ▸ hne)
  rw [hname, hhead] at hsign
  intro hlabel
  rw [hlabel] at hsign
  exact absurd hsign (by decide)

/-- A put writes what the scopes say, and no other variable. -/
theorem put_agrees (hst : Ordered lib st) {pos : Position} {name : Bytes} {scope : Scope}
    (value : Bytes) (length : ℕ) (hloaded : (Access.get pos name scope).Loaded st)
    (hplain : (Access.get pos name scope).Plain st) :
    ∃ st', variablePut lib st pos name value length scope.type = some st' ∧ Ordered lib st' ∧
      values st' = (values st).put pos name (putValue value length) scope ∧
      ∀ n v', entry st' n = some v' → v'.type = scope.type ∨ ∃ v, entry st n = some v ∧
        v'.type = v.type := by
  have hname : putName st pos name scope.type = (values st).target pos name scope :=
    putName_scope name scope hloaded
  have hentry : ∃ v, putEntry lib st (putName st pos name scope.type) (putValue value length)
      scope.type = some (putName st pos name scope.type, v) ∧ v.value = putValue value length ∧
        (v.type = scope.type ∨
          ∃ u, entry st (putName st pos name scope.type) = some u ∧ v.type = u.type) := by
    cases he : entry st (putName st pos name scope.type) with
    | none => exact ⟨_, putEntry_new he _ _, rfl, .inl rfl⟩
    | some u =>
        have hfull := target_names (values st) pos name scope
        rw [← hname] at hfull
        obtain ⟨href, hdef⟩ := hplain _ u hfull he
        have hlabel := sign_of_full hst hfull he
        have hscope : scope.type ≠ .userRef := by cases scope <;> decide
        refine ⟨{ u with value := putValue value length }, ?_, rfl, .inr ⟨u, rfl, rfl⟩⟩
        rw [putEntry_old he, if_neg hscope, if_neg href, if_neg hdef, if_neg hlabel]
  obtain ⟨v, hput, hvalue, htype⟩ := hentry
  rcases variablePut_spec hst pos name value length scope.type with
    ⟨hnone, -⟩ | ⟨n, w, st', hsome, hput', hst', hwrites⟩
  · rw [hput] at hnone
    cases hnone
  · rw [hput] at hsome
    cases hsome
    refine ⟨st', hput', hst', ?_, ?_⟩
    · funext m
      rw [Scopes.put, ← hname, values, hwrites]
      by_cases hm : m = putName st pos name scope.type
      · rw [if_pos hm, hm, Function.update_self, Option.map_some, hvalue]
      · rw [if_neg hm, Function.update_of_ne hm]
        rfl
    · intro m v' hv'
      rw [hwrites] at hv'
      by_cases hm : m = putName st pos name scope.type
      · rw [if_pos hm] at hv'
        cases hv'
        rw [hm]
        exact htype
      · rw [if_neg hm] at hv'
        exact .inr ⟨v', hv', rfl⟩

theorem get_of_entry {v : Variable} {pos : Position} {name : Bytes} {scope : Scope}
    (hst : Ordered lib st) (h : resolveEntry st pos name scope.type = some v)
    (hv : v.type ≠ .userRef) : variableGet lib st pos name scope.type = some v.value := by
  have hscope : scope.type ≠ .userRef := by cases scope <;> decide
  rw [variableGet_some hst h, if_neg hscope, valueOf_plain hv]

/-- A get returns what the scopes say. -/
theorem get_agrees (hst : Ordered lib st) {pos : Position} {name : Bytes} {scope : Scope}
    (hplain : (Access.get pos name scope).Plain st) :
    variableGet lib st pos name scope.type = (values st).get pos name := by
  unfold Scopes.get
  have hresolve : resolveEntry st pos name scope.type =
      (if pos.label ≠ [] then entry st (labelFull pos name) else none).or
        ((entry st (programFull pos.program name)).or
          (entry st (programFull defaultProgram name))) := by
    rw [resolveEntry, labelKey_scope, programKey_scope, programKey_scope]
  by_cases hlabelled : (values st).Labelled pos name
  · obtain ⟨v, hv⟩ := Option.isSome_iff_exists.1 ((values_isSome _).1 hlabelled.2)
    rw [if_pos hlabelled, values, hv]
    rw [if_pos hlabelled.1, hv] at hresolve
    exact get_of_entry hst hresolve (hplain _ v (.inl rfl) hv).1
  rw [if_neg hlabelled]
  have hnolabel : (if pos.label ≠ [] then entry st (labelFull pos name) else none) = none := by
    by_cases hlabel : pos.label ≠ []
    · rw [if_pos hlabel]
      refine Option.not_isSome_iff_eq_none.1 fun h => ?_
      exact hlabelled ⟨hlabel, (values_isSome _).2 h⟩
    · exact if_neg hlabel
  rw [hnolabel, Option.none_or] at hresolve
  cases hprogram : entry st (programFull pos.program name) with
  | some v =>
      have hsome : (values st (programFull pos.program name)).isSome := by
        rw [values_isSome, hprogram]
        rfl
      rw [if_pos hsome, values, hprogram]
      rw [hprogram] at hresolve
      exact get_of_entry hst hresolve (hplain _ v (.inr (.inl rfl)) hprogram).1
  | none =>
      have hnone : ¬ (values st (programFull pos.program name)).isSome := by
        rw [values_isSome, hprogram]
        exact Bool.false_ne_true
      rw [if_neg hnone, values]
      rw [hprogram, Option.none_or] at hresolve
      cases hdefault : entry st (programFull defaultProgram name) with
      | some v =>
          rw [hdefault] at hresolve
          exact get_of_entry hst hresolve (hplain _ v (.inr (.inr rfl)) hdefault).1
      | none =>
          rw [hdefault] at hresolve
          exact variableGet_none hst hresolve

theorem plain_put {st' : Store} {scope : Scope} {a : Access}
    (htypes : ∀ n v', entry st' n = some v' → v'.type = scope.type ∨
      ∃ v, entry st n = some v ∧ v'.type = v.type) (h : a.Plain st) : a.Plain st' := by
  intro n v' hn hv'
  rcases htypes n v' hv' with htype | ⟨v, hv, htype⟩
  · rw [htype]
    cases scope <;> decide
  · rw [htype]
    exact h n v hn hv

theorem loaded_put {st' : Store} {n : Bytes} (hsome : (values st' n).isSome) (a : Access) :
    a.Loaded st' := by
  rintro rfl
  cases hsome

theorem accesses_agree (hst : Ordered lib st) (as : List Access)
    (hloaded : ∀ a ∈ as, a.Loaded st) (hplain : ∀ a ∈ as, a.Plain st) :
    ∃ st' outs, runAccesses lib st as = some (st', outs) ∧
      (values st).runAccesses as = (values st', outs) := by
  induction as generalizing st with
  | nil => exact ⟨st, [], rfl, rfl⟩
  | cons a as ih =>
      obtain ⟨hloadedHead, hloadedTail⟩ := List.forall_mem_cons.1 hloaded
      obtain ⟨hplainHead, hplainTail⟩ := List.forall_mem_cons.1 hplain
      cases a with
      | put pos name value length scope =>
          obtain ⟨st₁, hput, hst₁, hvalues, htypes⟩ :=
            put_agrees hst value length hloadedHead hplainHead
          have hsome : (values st₁ ((values st).target pos name scope)).isSome := by
            rw [hvalues, Scopes.put, Function.update_self]
            rfl
          obtain ⟨st', outs, hrun, hspec⟩ := ih hst₁ (fun a _ => loaded_put hsome a)
            fun a ha => plain_put htypes (hplainTail a ha)
          refine ⟨st', outs, ?_, ?_⟩
          · rw [runAccesses, hput]
            exact hrun
          · rw [Scopes.runAccesses, ← hvalues]
            exact hspec
      | get pos name scope =>
          obtain ⟨st', outs, hrun, hspec⟩ := ih hst hloadedTail hplainTail
          refine ⟨st', variableGet lib st pos name scope.type :: outs, ?_, ?_⟩
          · rw [runAccesses, hrun]
            rfl
          · rw [Scopes.runAccesses, hspec, get_agrees hst hplainHead]

/-- From every store that is reached, puts and gets at any positions of the program return what the
scopes say and leave the variables the scopes say. -/
theorem store_refines_scopes {s : Tracked} (h : s.Reached lib) (as : List Access)
    (hloaded : ∀ a ∈ as, a.Loaded s.store) (hplain : ∀ a ∈ as, a.Plain s.store) :
    ∃ st' outs, runAccesses lib s.store as = some (st', outs) ∧
      (values s.store).runAccesses as = (values st', outs) :=
  accesses_agree h.right.ordered as hloaded hplain

theorem plain_of_types (h : ∀ v ∈ st, v.type ≠ .userRef ∧ v.type ≠ .userDefine) (a : Access) :
    a.Plain st := fun _ v _ hv => h v (entry_mem hv).1

end

def labelStore : Store := [⟨cstr "#()l", cstr "7", .label, getHash (cstr "#()l")⟩]

theorem labelStore_reached : Tracked.Reached plainLibrary ⟨labelStore, [cstr "#()l"]⟩ := by
  have hstart : Tracked.Starts ⟨[], []⟩ := rfl
  have hput : Tracked.step plainLibrary ⟨[], []⟩
      (.put topLevel (cstr "l") (cstr "7") 1 .label) = some ⟨labelStore, [cstr "#()l"]⟩ := rfl
  exact (Runs.Reaches.start hstart).next trivial hput

def shadowed : List Access :=
  [.put topLevel (cstr "x") (cstr "1") 1 .user,
    .put ⟨defaultProgram, cstr "l"⟩ (cstr "x") (cstr "2") 1 .userLocal,
    .get ⟨defaultProgram, cstr "l"⟩ (cstr "x") .user, .get topLevel (cstr "x") .user]

theorem store_refines_scopes_shadowed :
    ∃ st', runAccesses plainLibrary labelStore shadowed =
      some (st', [some (cstr "2"), some (cstr "1")]) := by
  have hloaded : ∀ a ∈ shadowed, a.Loaded labelStore := fun _ _ h => by cases h
  have hplain : ∀ a ∈ shadowed, a.Plain labelStore := by
    intro a _
    refine plain_of_types (fun v hv => ?_) a
    rw [List.mem_singleton.1 hv]
    decide
  obtain ⟨st', outs, hrun, hspec⟩ :=
    store_refines_scopes labelStore_reached shadowed hloaded hplain
  have houts : [some (cstr "2"), some (cstr "1")] = outs := congrArg Prod.snd hspec
  exact ⟨st', houts ▸ hrun⟩

end ScOpen
