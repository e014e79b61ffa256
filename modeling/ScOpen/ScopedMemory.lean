import ScOpen.ScriptLanguage
import ScOpen.VariableScopes

/-!
# The variables at one place

Seen from one label of one program, the scopes are a map from names to values: an assignment changes
the value of its name and of no other name. What a program reads and assigns there is what it would
with such a map, as long as the names do not stand for references or constants.
-/

namespace ScOpen

def Position.Proper (pos : Position) : Prop := pos.program.head? ≠ some (chr ')')

section

variable {pos : Position}

theorem programFull_injective (program : Bytes) : Function.Injective (programFull program) :=
  fun _ _ h => List.append_cancel_left h

theorem labelFull_injective (pos : Position) : Function.Injective (labelFull pos) :=
  fun _ _ h => List.append_cancel_left h

theorem labelFull_ne_programFull (pos : Position) (name name' : Bytes) :
    labelFull pos name ≠ programFull pos.program name' := by
  intro h
  simp only [labelFull, programFull, List.append_assoc] at h
  have htail := congrArg List.head? (List.append_cancel_left (List.append_cancel_left h))
  have hdot : chr '.' ≠ chr ')' := by decide
  exact hdot (Option.some.inj htail)

/-- What is behind the opening parenthesis of a full name. -/
theorem Position.Proper.ne_default (h : pos.Proper) {rest : Bytes} (name : Bytes)
    (hrest : rest.head? ≠ some (chr ')')) :
    cstr "(" ++ (pos.program ++ rest) ≠ programFull defaultProgram name := by
  intro heq
  simp only [programFull, defaultProgram, List.append_nil, List.append_assoc] at heq
  have htail := congrArg List.head? (List.append_cancel_left heq)
  cases hprogram : pos.program with
  | nil =>
      rw [hprogram, List.nil_append] at htail
      exact hrest htail
  | cons c program =>
      rw [hprogram] at htail
      rw [Position.Proper, hprogram] at h
      exact h htail

theorem labelFull_ne_default (h : pos.Proper) (name name' : Bytes) :
    labelFull pos name ≠ programFull defaultProgram name' := by
  have hdot : chr '.' ≠ chr ')' := by decide
  have hrest : (cstr "." ++ (pos.label ++ (cstr ")" ++ name))).head? ≠ some (chr ')') :=
    fun h => hdot (Option.some.inj h)
  have hne := h.ne_default name' hrest
  simpa [labelFull] using hne

theorem programFull_eq_default (h : pos.Proper) {name name' : Bytes}
    (heq : programFull pos.program name = programFull defaultProgram name') : name = name' := by
  cases hprogram : pos.program with
  | nil =>
      rw [hprogram] at heq
      exact programFull_injective [] heq
  | cons c program =>
      simp only [programFull, defaultProgram, List.append_nil, List.append_assoc, hprogram] at heq
      have htail := congrArg List.head? (List.append_cancel_left heq)
      rw [Position.Proper, hprogram] at h
      exact absurd htail h

/-! ## Assignments -/

variable {m : Scopes} {name : Bytes}

/-- A full name that no lookup of the name comes to. -/
theorem Scopes.get_update {full : Bytes} (hlabel : labelFull pos name ≠ full)
    (hprogram : programFull pos.program name ≠ full)
    (hdefault : programFull defaultProgram name ≠ full) (value : Option Bytes) :
    Scopes.get (Function.update m full value) pos name = m.get pos name := by
  have hlabelled : Scopes.Labelled (Function.update m full value) pos name ↔
      m.Labelled pos name := by
    rw [Scopes.Labelled, Scopes.Labelled, Function.update_of_ne hlabel]
  rw [Scopes.get, Scopes.get, Function.update_of_ne hlabel, Function.update_of_ne hprogram,
    Function.update_of_ne hdefault]
  exact if_congr hlabelled rfl rfl

theorem Scopes.get_target (value : Bytes) :
    (m.put pos name value .user).get pos name = some value := by
  by_cases h : m.Labelled pos name
  · have htarget : m.target pos name .user = labelFull pos name := if_pos h
    have hself : m.put pos name value .user (labelFull pos name) = some value := by
      rw [Scopes.put, htarget, Function.update_self]
    have hlabelled : (m.put pos name value .user).Labelled pos name := by
      refine ⟨h.1, ?_⟩
      rw [hself]
      rfl
    rw [Scopes.get, if_pos hlabelled, hself]
  · have htarget := target_unlabelled h
    have hself : m.put pos name value .user (programFull pos.program name) = some value := by
      rw [Scopes.put, htarget, Function.update_self]
    have hunlabelled : ¬(m.put pos name value .user).Labelled pos name := by
      rintro ⟨hlabel, hsome⟩
      rw [Scopes.put, htarget,
        Function.update_of_ne (labelFull_ne_programFull pos name name)] at hsome
      exact h ⟨hlabel, hsome⟩
    have hsome : (m.put pos name value .user (programFull pos.program name)).isSome := by
      rw [hself]
      rfl
    rw [Scopes.get, if_neg hunlabelled, if_pos hsome, hself]

/-- An assignment changes what the program sees at its name, and nothing else. -/
theorem Scopes.get_put (hpos : pos.Proper) (m : Scopes) (name value : Bytes) :
    (m.put pos name value .user).get pos = Function.update (m.get pos) name (some value) := by
  funext name'
  by_cases hname : name' = name
  · rw [hname, Function.update_self, Scopes.get_target]
  rw [Function.update_of_ne hname, Scopes.put]
  by_cases h : m.Labelled pos name
  · have htarget : m.target pos name .user = labelFull pos name := if_pos h
    rw [htarget]
    exact Scopes.get_update (fun heq => hname (labelFull_injective pos heq))
      (labelFull_ne_programFull pos name name').symm (labelFull_ne_default hpos name name').symm _
  · rw [target_unlabelled h]
    exact Scopes.get_update (labelFull_ne_programFull pos name' name)
      (fun heq => hname (programFull_injective _ heq))
      (fun heq => hname (programFull_eq_default hpos heq.symm).symm) _

/-! ## The memory of a script -/

variable (L : ScriptLibrary)

def ScriptLibrary.Here (pos : Position) (i : ℕ) : Prop :=
  labelGet L.search L.labels i = pos.label

/-- The script sees these values at the place. None of the plain names stands for a reference or for
a constant. -/
structure ScriptLibrary.Sees (pos : Position) (plain : Bytes → Prop) (memory : Bytes → Option Bytes)
    (vars : ScriptState) : Prop where
  program : vars.program = pos.program
  ordered : Ordered L.store vars.store
  loaded : vars.store = [] → pos = topLevel
  plain : ∀ name, plain name → (Access.get pos name .user).Plain vars.store
  memory : (values vars.store).get pos = memory

variable {L} {plain : Bytes → Prop} {memory : Bytes → Option Bytes} {vars : ScriptState} {i : ℕ}

theorem ScriptLibrary.Sees.position (h : L.Sees pos plain memory vars) (hi : L.Here pos i) :
    L.position vars i = pos := by
  rw [ScriptLibrary.position, h.program, hi]

theorem ScriptLibrary.Sees.get (h : L.Sees pos plain memory vars) (hi : L.Here pos i) (name : Bytes)
    (hname : plain (cString name)) : L.get .user i name (some vars) = memory (cString name) := by
  rw [ScriptLibrary.get, Option.bind_some, h.position hi]
  have hget := get_agrees h.ordered (h.plain _ hname)
  rw [h.memory] at hget
  exact hget

theorem ScriptLibrary.Sees.put (hpos : pos.Proper) (h : L.Sees pos plain memory vars)
    (hi : L.Here pos i) (name : Bytes) (hname : plain (cString name)) (value : Bytes) (length : ℕ) :
    ∃ vars', L.put .user i name value length (some vars) = some vars' ∧
      L.Sees pos plain
        (Function.update memory (cString name) (some (putValue value length))) vars' := by
  obtain ⟨st', hput, hordered, hvalues, htypes⟩ :=
    @put_agrees L.store vars.store h.ordered pos (cString name) .user value length h.loaded
      (h.plain _ hname)
  refine ⟨{ vars with store := st' }, ?_, ⟨h.program, hordered, ?_, ?_, ?_⟩⟩
  · rw [ScriptLibrary.put, Option.bind_some, h.position hi]
    exact congrArg (Option.map _) hput
  · intro hnil
    have hsome : (values st' ((values vars.store).target pos (cString name) .user)).isSome := by
      rw [hvalues, Scopes.put, Function.update_self]
      rfl
    exact loaded_put hsome (Access.get pos name .user) hnil
  · exact fun name' hname' => plain_put htypes (h.plain name' hname')
  · rw [hvalues, Scopes.get_put hpos, h.memory]

end

end ScOpen
