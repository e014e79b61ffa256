import ScOpen.VariableScopes

/-!
# Full names

A full name tells whether an entry is a user's, the scope it belongs to and its name. It does not
tell the interpreter's own entries from labels, nor a label of a program from a program with a dot
in its name, so such entries are one.
-/

namespace ScOpen

/-- An entry of the store: a user's variable of a program or of one of its labels, an entry of the
interpreter's own, or a label. -/
inductive Slot where
  | user (program within name : Bytes)
  | sc (program name : Bytes)
  | label (program name : Bytes)
  deriving DecidableEq

namespace Slot

def type : Slot → VarTypes
  | .user _ _ _ => .userLocal
  | .sc _ _ => .sc
  | .label _ _ => .label

def position : Slot → Position
  | .user program within _ => ⟨program, within⟩
  | .sc program _ => ⟨program, []⟩
  | .label program _ => ⟨program, []⟩

def name : Slot → Bytes
  | .user _ _ name => name
  | .sc _ name => name
  | .label _ name => name

/-- The full name under which the entry is stored and looked up. -/
def key (s : Slot) : Bytes :=
  if s.position.label ≠ [] then labelKey s.type s.position s.name
  else programKey s.type s.position.program s.name

/-- What stands between the parentheses of the full name. -/
def scope (s : Slot) : Bytes :=
  if s.position.label ≠ [] then s.position.program ++ cstr "." ++ s.position.label
  else s.position.program

def put (lib : StoreLibrary) (st : Store) (s : Slot) (value : Bytes) : Option Store :=
  variablePut lib st s.position s.name value value.length s.type

def read (lib : StoreLibrary) (st : Store) (s : Slot) : Option Bytes :=
  variableGet lib st s.position s.name s.type

def Lexed (s : Slot) : Prop := chr ')' ∉ s.scope

def Separate (lib : StoreLibrary) (st : Store) (s t : Slot) : Prop :=
  ∀ v w, ∃ st₁ st₂, s.put lib st v = some st₁ ∧ t.put lib st₁ w = some st₂ ∧
    s.read lib st₂ = some v

/-- One of the entries is a user's and the other is not, or their scopes are written in another
way, or their names. -/
def Differ (s t : Slot) : Prop :=
  s.type.sign ≠ t.type.sign ∨ s.scope ≠ t.scope ∨ s.name ≠ t.name

instance (s t : Slot) : Decidable (s.Differ t) := inferInstanceAs (Decidable (_ ∨ _ ∨ _))

theorem type_cases (s : Slot) : s.type = .userLocal ∨ s.type = .sc ∨ s.type = .label := by
  cases s with
  | user program within name => exact .inl rfl
  | sc program name => exact .inr (.inl rfl)
  | label program name => exact .inr (.inr rfl)

theorem type_ne_global (s : Slot) : s.type ≠ .userGlobal := by
  rcases s.type_cases with h | h | h <;> rw [h] <;> decide

theorem type_ne_ref (s : Slot) : s.type ≠ .userRef := by
  rcases s.type_cases with h | h | h <;> rw [h] <;> decide

theorem type_ne_define (s : Slot) : s.type ≠ .userDefine := by
  rcases s.type_cases with h | h | h <;> rw [h] <;> decide

theorem key_eq (s : Slot) :
    s.key = varPrefix s.type ++ cstr "(" ++ (s.scope ++ chr ')' :: s.name) := by
  unfold key scope
  split_ifs
  · unfold labelKey
    simp only [List.append_assoc]
    rfl
  · unfold programKey
    simp only [List.append_assoc]
    rfl

theorem key_head (s : Slot) : s.key.head? = some s.type.sign := by
  unfold key
  split_ifs
  · exact labelKey_head _ _ _
  · exact programKey_head _ _ _

theorem append_sep_inj {c : UInt8} {a b n m : Bytes} (ha : c ∉ a) (hb : c ∉ b)
    (h : a ++ c :: n = b ++ c :: m) : a = b ∧ n = m := by
  induction a generalizing b with
  | nil =>
      cases b with
      | nil => exact ⟨rfl, (List.cons.inj h).2⟩
      | cons y ys => exact absurd (List.mem_cons.2 (.inl (List.cons.inj h).1)) hb
  | cons x xs ih =>
      cases b with
      | nil => exact absurd (List.mem_cons.2 (.inl (List.cons.inj h).1.symm)) ha
      | cons y ys =>
          obtain ⟨rfl, htail⟩ := List.cons.inj h
          obtain ⟨rfl, hnm⟩ := ih (fun hx => ha (List.mem_cons_of_mem _ hx))
            (fun hy => hb (List.mem_cons_of_mem _ hy)) htail
          exact ⟨rfl, hnm⟩

theorem sign_prefix {s t : Slot} (h : s.type.sign = t.type.sign) :
    varPrefix s.type = varPrefix t.type := by
  have hne : chr '#' ≠ chr '(' := by decide
  cases s <;> cases t
  all_goals first
    | rfl
    | exact absurd h hne
    | exact absurd h.symm hne

theorem key_ne_iff {s t : Slot} (hs : s.Lexed) (ht : t.Lexed) : s.key ≠ t.key ↔ s.Differ t := by
  rw [Ne, ← not_iff_comm]
  constructor
  · intro h
    obtain ⟨hsign, hrest⟩ := not_or.1 h
    obtain ⟨hscope, hname⟩ := not_or.1 hrest
    rw [key_eq, key_eq, sign_prefix (not_not.1 hsign), not_not.1 hscope, not_not.1 hname]
  · intro heq
    have hhead := congrArg List.head? heq
    rw [key_head, key_head] at hhead
    have hsign := Option.some.inj hhead
    rw [key_eq, key_eq, sign_prefix hsign] at heq
    obtain ⟨hscope, hname⟩ := append_sep_inj hs ht (List.append_cancel_left heq)
    rintro (h | h | h)
    · exact h hsign
    · exact h hscope
    · exact h hname

section

variable {lib : StoreLibrary} {st : Store}

theorem putName_slot (hne : st ≠ []) (s : Slot) :
    putName st s.position s.name s.type = s.key := by
  rw [putName, if_neg hne, if_neg s.type_ne_global, key]
  by_cases hlabel : s.position.label = []
  · rw [if_pos hlabel, if_neg (not_not.2 hlabel)]
  · have hlocal : s.type = .userLocal := by
      cases s with
      | user program within name => rfl
      | sc program name => exact absurd rfl hlabel
      | label program name => exact absurd rfl hlabel
    rw [if_neg hlabel, if_pos (.inl hlocal), if_pos hlabel]

theorem resolve_slot {s : Slot} {v : Variable} (h : entry st s.key = some v) :
    resolveEntry st s.position s.name s.type = some v := by
  unfold resolveEntry
  unfold key at h
  by_cases hlabel : s.position.label ≠ []
  · rw [if_pos hlabel] at h ⊢
    rw [h]
    rfl
  · rw [if_neg hlabel] at h ⊢
    rw [h]
    rfl

theorem read_of_entry (hst : Ordered lib st) {s : Slot} {v : Variable}
    (h : entry st s.key = some v) (hv : v.type ≠ .userRef) : s.read lib st = some v.value := by
  rw [read, variableGet_some hst (resolve_slot h), if_neg s.type_ne_ref, valueOf_plain hv]

theorem put_new (hst : Ordered lib st) (hne : st ≠ []) {s : Slot} (h : entry st s.key = none)
    (value : Bytes) :
    ∃ st', s.put lib st value = some st' ∧
      Writes lib st st' s.key (lib.named s.key value s.type) := by
  have hentry : putEntry lib st s.key value s.type = _ := putEntry_new h value s.type
  rcases variablePut_spec hst s.position s.name value value.length s.type with
    ⟨hnone, -⟩ | ⟨n, v, st', hsome, hput, hwrites⟩
  · rw [putName_slot hne, putValue_length, hentry] at hnone
    cases hnone
  · rw [putName_slot hne, putValue_length, hentry] at hsome
    cases hsome
    exact ⟨st', hput, hwrites⟩

theorem separate_of_differ (hst : Ordered lib st) (hne : st ≠ []) {s t : Slot}
    (hs : entry st s.key = none) (ht : entry st t.key = none) (hkey : s.key ≠ t.key) :
    s.Separate lib st t := by
  intro v w
  obtain ⟨st₁, hput₁, hst₁, hwrites₁⟩ := put_new hst hne hs v
  have hs₁ : entry st₁ s.key = some (lib.named s.key v s.type) := by
    rw [hwrites₁, if_pos rfl]
  have ht₁ : entry st₁ t.key = none := by
    rw [hwrites₁, if_neg hkey.symm]
    exact ht
  obtain ⟨st₂, hput₂, hst₂, hwrites₂⟩ := put_new hst₁ (ne_nil_of_entry hs₁) ht₁ w
  refine ⟨st₁, st₂, hput₁, hput₂, ?_⟩
  have hs₂ : entry st₂ s.key = some (lib.named s.key v s.type) := by
    rw [hwrites₂, if_neg hkey]
    exact hs₁
  exact read_of_entry hst₂ hs₂ s.type_ne_ref

theorem not_separate (hst : Ordered lib st) (hne : st ≠ []) {s t : Slot}
    (hs : entry st s.key = none) (hkey : s.key = t.key) : ¬ s.Separate lib st t := by
  intro hsep
  obtain ⟨st₁, st₂, hput₁, hput₂, hread⟩ := hsep [] [0]
  obtain ⟨st', hput, hst', hwrites⟩ := put_new hst hne hs []
  rw [hput₁] at hput
  cases hput
  have hs₁ : entry st₁ t.key = some (lib.named s.key [] s.type) := by
    rw [hwrites, if_pos hkey.symm]
  have hentry : putEntry lib st₁ t.key [0] t.type = _ := putEntry_old hs₁ [0] t.type
  have htype : (lib.named s.key [] s.type).type = s.type := rfl
  rw [htype, if_neg t.type_ne_ref, if_neg s.type_ne_ref, if_neg s.type_ne_define] at hentry
  rcases variablePut_spec hst' t.position t.name [0] 1 t.type with
    ⟨-, hnone⟩ | ⟨n, v, st₃, hsome, hput₃, hst₃, hwrites₃⟩
  · have hfail : t.put lib st₁ [0] = none := hnone
    rw [hfail] at hput₂
    cases hput₂
  · have hdone : t.put lib st₁ [0] = some st₃ := hput₃
    rw [hdone] at hput₂
    cases hput₂
    rw [putName_slot (ne_nil_of_entry hs₁)] at hsome
    by_cases hlabel : s.type = .label
    · rw [if_pos hlabel] at hentry
      rw [show putValue [0] 1 = [0] from rfl, hentry] at hsome
      cases hsome
    · rw [if_neg hlabel] at hentry
      rw [show putValue [0] 1 = [0] from rfl, hentry] at hsome
      cases hsome
      have hs₂ : entry st₂ s.key = some { lib.named s.key [] s.type with value := [0] } := by
        rw [hwrites₃, if_pos hkey]
        rfl
      rw [read_of_entry hst₃ hs₂ s.type_ne_ref] at hread
      cases hread

/-- Two entries keep out of each other's way exactly when their full names are told apart by
whose they are, the written scope or the name. -/
theorem separate_iff {s t : Slot} {r : Tracked} (hr : r.Reached lib) (hne : r.store ≠ [])
    (hs : s.Lexed) (ht : t.Lexed) (hs' : entry r.store s.key = none)
    (ht' : entry r.store t.key = none) :
    (s.key ≠ t.key ↔ s.Differ t) ∧ (s.Separate lib r.store t ↔ s.Differ t) := by
  have hst := hr.right.ordered
  refine ⟨key_ne_iff hs ht, ?_⟩
  rw [← key_ne_iff hs ht]
  constructor
  · exact fun hsep hkey => not_separate hst hne hs' hkey hsep
  · exact separate_of_differ hst hne hs' ht'

end

theorem separate_iff_two_programs :
    (user (cstr "a") [] (cstr "x")).Separate plainLibrary labelStore
      (user (cstr "b") [] (cstr "x")) := by
  have h := separate_iff (s := user (cstr "a") [] (cstr "x"))
    (t := user (cstr "b") [] (cstr "x")) labelStore_reached (by decide) (by unfold Lexed; decide)
    (by unfold Lexed; decide) rfl rfl
  exact h.2.2 (by decide)

/-- A label of a program and a program with a dot in its name, and a label that is named as what
`gosub` keeps. -/
theorem not_always_separate :
    ¬ (user (cstr "a") (cstr "b") (cstr "x")).Separate plainLibrary labelStore
        (user (cstr "a.b") [] (cstr "x")) ∧
      ¬ (label (cstr "a") (cstr "RETURN.1")).Separate plainLibrary labelStore
        (sc (cstr "a") (cstr "RETURN.1")) := by
  have hst := labelStore_reached.right.ordered
  have hne : labelStore ≠ [] := by decide
  exact ⟨not_separate hst hne rfl rfl, not_separate hst hne rfl rfl⟩

end Slot

end ScOpen
