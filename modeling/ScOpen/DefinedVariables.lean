import ScOpen.VariableScopes

/-!
# Defined variables

A defined variable cannot be assigned under its own name. A reference to it is written through all
the same, and a parameter that is passed by reference takes its place where it finds it.
-/

namespace ScOpen

structure Defining where
  store : Store
  defined : List (Bytes × Bytes)

def StoreOp.define (lib : StoreLibrary) (s : Defining) : StoreOp → List (Bytes × Bytes)
  | .put pos name value length type =>
      match whatToDo lib s.store pos name type with
      | .addIt full =>
          if type = .userDefine then (full, putValue value length) :: s.defined else s.defined
      | .updateIt _ => s.defined
  | .delete program name => s.defined.filter fun d => !deletes program name d.1
  | .deleteAll => []

def Defining.step (lib : StoreLibrary) (s : Defining) (op : StoreOp) : Option Defining :=
  (op.run lib s.store).map fun st => ⟨st, op.define lib s⟩

def Defining.Starts (s : Defining) : Prop := s = ⟨[], []⟩

/-- No parameter by reference is put where a defined variable is, and nothing is assigned through
a reference to one. -/
def Defining.Respects (s : Defining) : StoreOp → Prop
  | .put pos name _ _ type =>
      ∀ v, entry s.store (putName s.store pos name type) = some v →
        (type = .userRef → v.type ≠ .userDefine) ∧
        (type ≠ .userRef → v.type = .userRef →
          ∀ u, entry s.store (cString v.value) = some u → u.type ≠ .userDefine)
  | _ => True

structure Defining.Kept (lib : StoreLibrary) (s : Defining) : Prop where
  ordered : Ordered lib s.store
  kept : ∀ n value, (n, value) ∈ s.defined →
    ∃ v, entry s.store n = some v ∧ v.type = .userDefine ∧ v.value = value

section

variable {lib : StoreLibrary}

/-- A put that respects them leaves the entries of defined variables as they are. -/
theorem put_keeps {s : Defining} {pos : Position} {name value : Bytes} {length : ℕ}
    {type : VarTypes} (hok : s.Respects (.put pos name value length type)) {m n : Bytes}
    {v u : Variable}
    (hput : putEntry lib s.store (putName s.store pos name type) (putValue value length) type =
      some (m, v))
    (hn : entry s.store n = some u) (hu : u.type = .userDefine) (hm : n = m) : v = u := by
  subst hm
  cases he : entry s.store (putName s.store pos name type) with
  | none =>
      rw [putEntry_new he] at hput
      cases hput
      rw [he] at hn
      cases hn
  | some w =>
      obtain ⟨hparam, hthrough⟩ := hok w he
      rw [putEntry_old he] at hput
      by_cases htype : type = .userRef
      · rw [if_pos htype] at hput
        cases hput
        rw [he] at hn
        cases hn
        exact absurd hu (hparam htype)
      rw [if_neg htype] at hput
      by_cases href : w.type = .userRef
      · rw [if_pos href] at hput
        obtain ⟨x, hx, heq⟩ := Option.map_eq_some_iff.1 hput
        cases heq
        rw [hn] at hx
        cases hx
        exact absurd hu (hthrough htype href u hn)
      rw [if_neg href] at hput
      by_cases hdef : w.type = .userDefine
      · rw [if_pos hdef] at hput
        cases hput
        rw [he] at hn
        exact Option.some.inj hn
      rw [if_neg hdef] at hput
      by_cases hlabel : w.type = .label
      · rw [if_pos hlabel] at hput
        cases hput
      · rw [if_neg hlabel] at hput
        cases hput
        rw [he] at hn
        cases hn
        exact absurd hu hdef

theorem Defining.Kept.step {s s' : Defining} {op : StoreOp} (hs : s.Kept lib)
    (hok : s.Respects op) (hstep : s.step lib op = some s') : s'.Kept lib := by
  obtain ⟨hst, hkept⟩ := hs
  obtain ⟨st', hrun, rfl⟩ := Option.map_eq_some_iff.1 hstep
  refine ⟨StoreOp.ordered hst hrun, ?_⟩
  cases op with
  | put pos name value length type =>
      rcases variablePut_spec hst pos name value length type with
        ⟨-, hput⟩ | ⟨m, v, st₁, hentry, hput, -, hwrites⟩
      · rw [StoreOp.run, hput] at hrun
        cases hrun
      rw [StoreOp.run, hput] at hrun
      cases hrun
      have hold : ∀ n x, (n, x) ∈ s.defined →
          ∃ u, entry st' n = some u ∧ u.type = .userDefine ∧ u.value = x := by
        intro n x hmem
        obtain ⟨u, hu, htype, hvalue⟩ := hkept n x hmem
        refine ⟨u, ?_, htype, hvalue⟩
        rw [hwrites]
        by_cases hm : n = m
        · rw [if_pos hm, put_keeps hok hentry hu htype hm]
        · rw [if_neg hm]
          exact hu
      have hlist : StoreOp.define lib s (.put pos name value length type) =
          match choose lib s.store (putName s.store pos name type) with
          | .addIt full =>
              if type = .userDefine then (full, putValue value length) :: s.defined
              else s.defined
          | .updateIt _ => s.defined := by
        rw [StoreOp.define, whatToDo_eq hst]
      intro n x hmem
      rw [hlist] at hmem
      cases he : entry s.store (putName s.store pos name type) with
      | some w =>
          obtain ⟨i, -, hi⟩ := choose_some hst he
          rw [hi] at hmem
          exact hold n x hmem
      | none =>
          rw [choose_none hst (putName_ne_nil _ _ _ _) he] at hmem
          change (n, x) ∈ if type = .userDefine then _ else _ at hmem
          by_cases hdef : type = .userDefine
          · rw [if_pos hdef] at hmem
            rcases List.mem_cons.1 hmem with heq | hmem
            · cases heq
              rw [putEntry_new he] at hentry
              cases hentry
              exact ⟨_, by rw [hwrites, if_pos rfl], hdef, rfl⟩
            · exact hold n x hmem
          · rw [if_neg hdef] at hmem
            exact hold n x hmem
  | delete program name =>
      intro n x hmem
      obtain ⟨hmem, hleft⟩ := List.mem_filter.1 hmem
      obtain ⟨u, hu, hrest⟩ := hkept n x hmem
      refine ⟨u, ?_, hrest⟩
      rw [(variableDelete_spec hst hrun).2]
      rw [Bool.not_eq_true'] at hleft
      rw [hleft]
      exact hu
  | deleteAll => exact fun n x hmem => absurd hmem List.not_mem_nil

/-- In every run that respects them, defined variables keep their values, and to assign one under
its own name changes nothing. -/
theorem defined_kept {s : Defining}
    (h : Runs.Reaches (Defining.step lib) Defining.Respects Defining.Starts s) :
    (∀ n value, (n, value) ∈ s.defined →
      ∃ v, entry s.store n = some v ∧ v.type = .userDefine ∧ v.value = value) ∧
    ∀ pos name value length type v, type ≠ .userRef →
      entry s.store (putName s.store pos name type) = some v → v.type = .userDefine →
      variablePut lib s.store pos name value length type = some s.store := by
  have hkept : s.Kept lib := by
    refine h.invariant ?_ ?_
    · rintro s rfl
      exact ⟨ordered_nil, fun _ _ hmem => absurd hmem List.not_mem_nil⟩
    · exact fun s op s' hs hok hstep => hs.step hok hstep
  refine ⟨hkept.kept, ?_⟩
  exact fun pos name value length type v htype hv hdef =>
    variablePut_defined hkept.ordered htype hv hdef value length

end

def inLabel : Position := ⟨defaultProgram, cstr "s"⟩

def defineConstant : StoreOp := .put topLevel (cstr "c") (cstr "1") 1 .userDefine

def constantStore : Defining :=
  ⟨[⟨cstr "()c", cstr "1", .userDefine, getHash (cstr "()c")⟩], [(cstr "()c", cstr "1")]⟩

theorem defined_kept_constant :
    variablePut plainLibrary constantStore.store inLabel (cstr "c") (cstr "2") 1 .user =
      some constantStore.store := by
  have hstart : Defining.Starts ⟨[], []⟩ := rfl
  have hok : Defining.Respects ⟨[], []⟩ defineConstant := fun v hv => by cases hv
  have hstep : Defining.step plainLibrary ⟨[], []⟩ defineConstant = some constantStore := rfl
  have h := defined_kept ((Runs.Reaches.start hstart).next hok hstep)
  exact h.2 inLabel (cstr "c") (cstr "2") 1 .user _ (by decide) rfl rfl

/-- A constant that is assigned through a parameter. -/
theorem not_always_kept :
    ∃ s : Defining,
      [defineConstant, .put inLabel (cstr "p") (cstr "()c") 3 .userRef,
        .put inLabel (cstr "p") (cstr "2") 1 .user].foldlM (Defining.step plainLibrary)
          ⟨[], []⟩ = some s ∧
      (cstr "()c", cstr "1") ∈ s.defined ∧
      (entry s.store (cstr "()c")).map Variable.value = some (cstr "2") :=
  ⟨_, rfl, List.mem_singleton_self _, rfl⟩

end ScOpen
