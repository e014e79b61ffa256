import ScOpen.CrossReferences
import ScOpen.Interpreter
import ScOpen.MemoryBytes
import ScOpen.VariableScopes

/-!
# Cross references of a table

`define_xref v = x, y` defines `v[x]` as `y` and `v[y]` as `x`. An entry that is defined already is
left as it is, while the other one is defined all the same.
-/

namespace ScOpen

def xrefName (table key : Bytes) : Bytes :=
  cString table ++ cstr "[" ++ cString key ++ cstr "]"

def defineXref (lib : StoreLibrary) (st : Store) (pos : Position) (name value1 value2 : Bytes) :
    Option Store :=
  (variablePut lib st pos (xrefName name value1) value2 value2.length .userDefine).bind
    fun st => variablePut lib st pos (xrefName name value2) value1 value1.length .userDefine

section

variable (lang : Language Store)

/-- What `cmd_define_xref()` reads: the status, the name with the two values, and the program
behind them. A missing comma leaves the status of the first expression. -/
def xrefOperands (p : Running Store) : ℕ × Option (Bytes × Bytes × Bytes) × Running Store :=
  let (type, name, p) := getToken lang p
  if type = .identifier ∨ type = .variable_ then
    let (type, _, p) := getToken lang p
    if type = .assign then
      let (iret, value1, p) := evaluate lang p
      if iret ≠ 0 then (iret, none, p)
      else
        let (type, _, p) := getToken lang p
        if type = .comma then
          let (iret, value2, p) := evaluate lang p
          if iret ≠ 0 then (iret, none, p) else (iret, some (name, value1, value2), p)
        else (iret, none, p)
    else (1, none, p)
  else (1, none, p)

/-- `cmd_define_xref()` in a program, with the label at each index; `none` when it stops the
process. -/
def cmdDefineXref (lib : StoreLibrary) (program : Bytes) (label : ℕ → Bytes) (p : Running Store) :
    Option (ℕ × Running Store) :=
  let (iret, operands, p) := xrefOperands lang p
  match operands with
  | none => some (iret, p)
  | some (name, value1, value2) =>
      (defineXref lib p.env.user ⟨program, label p.programIdx⟩ name value1 value2).map
        fun st => (iret, p.setUser st)

end

/-! ## The elements of a table -/

def xrefFull (program table key : Bytes) : Bytes :=
  programKey .userDefine program (xrefName table key)

def XrefElement (program table n : Bytes) : Prop :=
  ∃ label key, n = labelKey .user ⟨program, label⟩ (xrefName table key) ∨
    n = programKey .user program (xrefName table key) ∨
    n = programKey .user defaultProgram (xrefName table key)

abbrev TableKey := { k : Bytes // (0 : UInt8) ∉ k }

def tableKey (value : Bytes) : TableKey := ⟨cString value, zero_notMem_cString value⟩

def xrefElements (program table : Bytes) (st : Store) : TableKey → Option Bytes :=
  fun k => (entry st (xrefFull program table k.1)).map Variable.value

def tableGet (lib : StoreLibrary) (st : Store) (pos : Position) (table key : Bytes) :
    Option Bytes :=
  variableGet lib st pos (xrefName table key) .user

section

variable {lib : StoreLibrary} {st : Store} {program table : Bytes}

theorem xrefName_key (table key : Bytes) :
    xrefName table (tableKey key).1 = xrefName table key := by
  have hkey : cString (cString key) = cString key := cString_eq_self (zero_notMem_cString key)
  rw [xrefName, tableKey, hkey]
  rfl

theorem xrefFull_key (program table key : Bytes) :
    xrefFull program table (tableKey key).1 = xrefFull program table key := by
  rw [xrefFull, xrefName_key]
  rfl

theorem xrefElements_key (key : Bytes) :
    xrefElements program table st (tableKey key) =
      (entry st (xrefFull program table key)).map Variable.value := by
  rw [xrefElements, xrefFull_key]

theorem tableKey_val (k : TableKey) : tableKey k.1 = k :=
  Subtype.ext (cString_eq_self k.2)

theorem xrefFull_inj {k j : TableKey} :
    xrefFull program table k.1 = xrefFull program table j.1 ↔ k = j := by
  constructor
  · intro h
    have hname := List.append_cancel_left h
    have htext := List.append_cancel_left (List.append_cancel_right hname)
    rw [cString_eq_self k.2, cString_eq_self j.2] at htext
    exact Subtype.ext htext
  · rintro rfl
    rfl

/-- The names of a label are not those of the program. -/
theorem labelKey_ne_programKey (type : VarTypes) (label name name' : Bytes) :
    labelKey type ⟨program, label⟩ name ≠ programKey type program name' := by
  intro h
  simp only [labelKey, programKey, List.append_assoc] at h
  have hrest := List.append_cancel_left (List.append_cancel_left (List.append_cancel_left h))
  have hhead := congrArg List.head? hrest
  cases hhead

theorem defaultKey_ne_programKey (hprogram : chr ')' ∉ program) (hne : program ≠ defaultProgram)
    (type : VarTypes) (name name' : Bytes) :
    programKey type defaultProgram name ≠ programKey type program name' := by
  intro h
  simp only [programKey, List.append_assoc] at h
  have hrest := List.append_cancel_left (List.append_cancel_left h)
  obtain ⟨c, rest, rfl⟩ := List.exists_cons_of_ne_nil hne
  have hhead : some (chr ')') = some c := congrArg List.head? hrest
  cases hhead
  exact hprogram List.mem_cons_self

end

/-! ## What a command does -/

structure XrefStored (lib : StoreLibrary) (program table : Bytes) (st : Store) : Prop where
  ordered : Ordered lib st
  others : ∀ n, XrefElement program table n → (∀ key, n ≠ xrefFull program table key) →
    entry st n = none
  defined : ∀ key v, entry st (xrefFull program table key) = some v → v.type = .userDefine

section

variable {lib : StoreLibrary} {st : Store} {program table : Bytes}

theorem XrefStored.label (h : XrefStored lib program table st) (label key : Bytes) :
    entry st (labelKey .user ⟨program, label⟩ (xrefName table key)) = none :=
  h.others _ ⟨label, key, .inl rfl⟩ fun _ => labelKey_ne_programKey .user label _ _

/-- An element is read from the program, whatever the label. -/
theorem XrefStored.get (hprogram : chr ')' ∉ program) (h : XrefStored lib program table st)
    (label key : Bytes) :
    tableGet lib st ⟨program, label⟩ table key = xrefElements program table st (tableKey key) := by
  rw [xrefElements_key]
  have hresolve : resolveEntry st ⟨program, label⟩ (xrefName table key) .user =
      entry st (xrefFull program table key) := by
    rw [resolveEntry, h.label, ite_self, Option.none_or]
    by_cases hne : program = defaultProgram
    · subst hne
      exact Option.or_self
    · rw [h.others _ ⟨label, key, .inr (.inr rfl)⟩
        fun _ => defaultKey_ne_programKey hprogram hne .user _ _, Option.or_none]
      rfl
  cases he : entry st (xrefFull program table key) with
  | none => exact variableGet_none h.ordered (hresolve.trans he)
  | some v =>
      have hv : v.type ≠ .userRef := by
        rw [h.defined key v he]
        decide
      have hscope : resolveEntry st ⟨program, label⟩ (xrefName table key) Scope.user.type =
          some v := hresolve.trans he
      have hget : variableGet lib st ⟨program, label⟩ (xrefName table key) Scope.user.type =
          some v.value := get_of_entry h.ordered hscope hv
      exact hget

/-- A put of a constant writes the element unless it is there. -/
theorem XrefStored.put (h : XrefStored lib program table st) (label key value : Bytes) :
    ∃ st', variablePut lib st ⟨program, label⟩ (xrefName table key) value value.length
        .userDefine = some st' ∧ Ordered lib st' ∧
      ∀ n, entry st' n =
        if n = xrefFull program table key ∧ entry st n = none then
          some (lib.named n value .userDefine) else entry st n := by
  have hput : putName st ⟨program, label⟩ (xrefName table key) .userDefine =
      xrefFull program table key := by
    have hlabel : ¬ (entry st
        (labelKey .userDefine ⟨program, label⟩ (xrefName table key))).isSome := by
      have hnone := h.label label key
      change entry st (labelKey .userDefine _ _) = none at hnone
      rw [hnone]
      exact Bool.false_ne_true
    unfold putName
    split_ifs with hnil hglobal hempty hhere
    · rfl
    · exact hglobal.elim
    · rfl
    · rcases hhere with hlocal | href | hsome
      · exact hlocal.elim
      · exact href.elim
      · exact absurd hsome hlabel
    · rfl
  cases he : entry st (xrefFull program table key) with
  | some v =>
      have hname : entry st (putName st ⟨program, label⟩ (xrefName table key) .userDefine) =
          some v := by rw [hput, he]
      refine ⟨st, variablePut_defined h.ordered (by decide) hname (h.defined key v he) _ _,
        h.ordered, fun n => ?_⟩
      rw [if_neg]
      rintro ⟨rfl, hnone⟩
      rw [he] at hnone
      cases hnone
  | none =>
      rcases variablePut_spec h.ordered ⟨program, label⟩ (xrefName table key) value
        value.length .userDefine with ⟨hstop, -⟩ | ⟨n, v, st', hentry, hst', hord, hwrites⟩
      · rw [hput, putEntry_new he] at hstop
        cases hstop
      · rw [hput, putEntry_new he, putValue_length] at hentry
        cases hentry
        refine ⟨st', hst', hord, fun m => ?_⟩
        rw [hwrites]
        by_cases hm : m = xrefFull program table key
        · subst hm
          rw [if_pos rfl, if_pos ⟨rfl, he⟩]
        · rw [if_neg hm, if_neg fun hboth => hm hboth.1]

/-- To the table, such a put is one that writes no entry twice. -/
theorem XrefStored.put_element (h : XrefStored lib program table st) (label key value : Bytes) :
    ∃ st', variablePut lib st ⟨program, label⟩ (xrefName table key) value value.length
        .userDefine = some st' ∧ XrefStored lib program table st' ∧
      xrefElements program table st' =
        CrossReferences.put (xrefElements program table st) (tableKey key) value := by
  obtain ⟨st', hst', hord, hentry⟩ := h.put label key value
  refine ⟨st', hst', ⟨hord, ?_, ?_⟩, ?_⟩
  · intro n hn hother
    rw [hentry, if_neg fun hboth => hother key hboth.1]
    exact h.others n hn hother
  · intro key' v hv
    rw [hentry] at hv
    split_ifs at hv
    · cases hv
      rfl
    · exact h.defined key' v hv
  · funext k
    have hk := hentry (xrefFull program table k.1)
    by_cases hkey : k = tableKey key
    · subst hkey
      rw [xrefFull_key] at hk
      cases he : entry st (xrefFull program table key) with
      | some v =>
          have htaken : (xrefElements program table st (tableKey key)).isSome := by
            rw [xrefElements_key, he]
            rfl
          have hstill : entry st' (xrefFull program table key) = some v := by
            rw [hk, he]
            exact if_neg fun hboth => Option.some_ne_none v hboth.2
          rw [CrossReferences.put_taken htaken, xrefElements_key, xrefElements_key, hstill, he]
      | none =>
          have hfree : xrefElements program table st (tableKey key) = none := by
            rw [xrefElements_key, he]
            rfl
          rw [CrossReferences.put_self hfree, xrefElements_key, hk, if_pos ⟨rfl, he⟩]
          rfl
    · have hne : xrefFull program table k.1 ≠ xrefFull program table key := by
        rw [← xrefFull_key program table key]
        exact fun hname => hkey (xrefFull_inj.1 hname)
      rw [if_neg fun hboth => hne hboth.1] at hk
      rw [CrossReferences.put_other hkey, xrefElements, hk]
      rfl

/-- To the table, a cross reference is a pair that is entered in both directions. -/
theorem XrefStored.entered (h : XrefStored lib program table st)
    (label name value1 value2 : Bytes) (hname : cString name = cString table) :
    ∃ st', defineXref lib st ⟨program, label⟩ name value1 value2 = some st' ∧
      XrefStored lib program table st' ∧
      xrefElements program table st' =
        CrossReferences.enter tableKey (xrefElements program table st) value1 value2 := by
  obtain ⟨st₁, hst₁, hstored₁, helements₁⟩ := h.put_element label value1 value2
  obtain ⟨st', hst', hstored', helements'⟩ := hstored₁.put_element label value2 value1
  refine ⟨st', ?_, hstored', ?_⟩
  · have hnames : ∀ value, xrefName name value = xrefName table value := by
      intro value
      rw [xrefName, hname]
      rfl
    rw [defineXref, hnames, hnames, hst₁]
    exact hst'
  · rw [helements', helements₁]
    rfl

end

/-! ## Sequences of commands -/

/-- To read an element, and then the element of its value, gives the key back. -/
def XrefInverse (lib : StoreLibrary) (program table : Bytes) (st : Store) : Prop :=
  ∀ label key value, 0 ∉ key → tableGet lib st ⟨program, label⟩ table key = some value →
    tableGet lib st ⟨program, label⟩ table value = some key

structure XrefKept (lib : StoreLibrary) (program table : Bytes) (st : Store) : Prop where
  stored : XrefStored lib program table st
  inverse : XrefInverse lib program table st

def XrefBoth (lib : StoreLibrary) (program table : Bytes) (st st' : Store)
    (value1 value2 : Bytes) : Prop :=
  (∀ label key, tableGet lib st' ⟨program, label⟩ table key =
    tableGet lib st ⟨program, label⟩ table key) ∨
  ∀ label, tableGet lib st' ⟨program, label⟩ table value1 = some value2 ∧
    tableGet lib st' ⟨program, label⟩ table value2 = some value1

/-- Both elements are defined already, or none of them is and the values have no byte 0. -/
def XrefDefinable (lib : StoreLibrary) (st : Store) (pos : Position)
    (table value1 value2 : Bytes) : Prop :=
  ((tableGet lib st pos table value1).isSome ∧ (tableGet lib st pos table value2).isSome) ∨
    (tableGet lib st pos table value1 = none ∧ tableGet lib st pos table value2 = none ∧
      0 ∉ value1 ∧ 0 ∉ value2)

section

variable (lang : Language Store) (lib : StoreLibrary) (program : Bytes) (label : ℕ → Bytes)
  (table : Bytes)

def xrefStep (st : Store) (p : Running Store) : Option Store :=
  (cmdDefineXref lang lib program label (p.setUser st)).map fun r => r.2.env.user

/-- The expressions of a command leave the elements of the table as they are, and what it defines
is a definable pair of the table. -/
structure XrefRespects (st : Store) (p : Running Store) : Prop where
  ordered : Ordered lib (xrefOperands lang (p.setUser st)).2.2.env.user
  kept : ∀ n, XrefElement program table n →
    entry (xrefOperands lang (p.setUser st)).2.2.env.user n = entry st n
  definable : ∀ name value1 value2,
    (xrefOperands lang (p.setUser st)).2.1 = some (name, value1, value2) →
      cString name = cString table ∧
      XrefDefinable lib st
        ⟨program, label (xrefOperands lang (p.setUser st)).2.2.programIdx⟩ table value1 value2

structure XrefStarts (st : Store) : Prop where
  ordered : Ordered lib st
  fresh : ∀ n, XrefElement program table n → entry st n = none

end

section

variable {lang : Language Store} {lib : StoreLibrary} {st st' : Store} {program table : Bytes}
  {label : ℕ → Bytes}

theorem xrefElement_full (program table key : Bytes) :
    XrefElement program table (xrefFull program table key) := ⟨[], key, .inr (.inl rfl)⟩

theorem XrefStored.inverse_iff (hprogram : chr ')' ∉ program)
    (h : XrefStored lib program table st) :
    XrefInverse lib program table st ↔
      CrossReferences.Inverse tableKey Subtype.val (xrefElements program table st) := by
  constructor
  · intro hinverse k value hvalue
    have hget := hinverse [] k.1 value k.2
    rw [h.get hprogram, h.get hprogram, tableKey_val] at hget
    exact hget hvalue
  · intro hinverse l key value hkey hvalue
    rw [h.get hprogram] at hvalue ⊢
    rw [hinverse _ value hvalue]
    exact congrArg some (cString_eq_self hkey)

theorem XrefStored.both_iff (hprogram : chr ')' ∉ program) (h : XrefStored lib program table st)
    (h' : XrefStored lib program table st') (value1 value2 : Bytes) :
    XrefBoth lib program table st st' value1 value2 ↔
      xrefElements program table st' = xrefElements program table st ∨
        CrossReferences.Entered tableKey (xrefElements program table st') value1 value2 := by
  refine or_congr ⟨fun hsame => ?_, fun hsame l key => ?_⟩ ⟨fun hboth => ?_, fun hboth l => ?_⟩
  · funext k
    have hk := hsame [] k.1
    rw [h.get hprogram, h'.get hprogram, tableKey_val] at hk
    exact hk
  · rw [h.get hprogram, h'.get hprogram, hsame]
  · have hvalues := hboth []
    rw [h'.get hprogram, h'.get hprogram] at hvalues
    exact hvalues
  · rw [h'.get hprogram, h'.get hprogram]
    exact hboth

theorem XrefStored.definable_iff (hprogram : chr ')' ∉ program)
    (h : XrefStored lib program table st) (l value1 value2 : Bytes) :
    XrefDefinable lib st ⟨program, l⟩ table value1 value2 ↔
      CrossReferences.Enterable tableKey Subtype.val (xrefElements program table st) value1
        value2 := by
  have htext : ∀ value : Bytes, 0 ∉ value ↔ (tableKey value).1 = value := by
    intro value
    refine ⟨cString_eq_self, fun heq => ?_⟩
    rw [← heq]
    exact (tableKey value).2
  rw [XrefDefinable, h.get hprogram, h.get hprogram, htext, htext]
  rfl

/-- A pair of the table that is put into it keeps the directions inverse and is defined in both or
in none just when it is definable. -/
theorem XrefKept.entered (hprogram : chr ')' ∉ program) (h : XrefKept lib program table st)
    {name : Bytes} (hname : cString name = cString table) (l value1 value2 : Bytes) :
    ∃ st', defineXref lib st ⟨program, l⟩ name value1 value2 = some st' ∧
      XrefStored lib program table st' ∧
      ((XrefInverse lib program table st' ∧
        XrefBoth lib program table st st' value1 value2) ↔
        XrefDefinable lib st ⟨program, l⟩ table value1 value2) := by
  obtain ⟨st', hst', hstored', helements⟩ := h.stored.entered l name value1 value2 hname
  refine ⟨st', hst', hstored', ?_⟩
  rw [hstored'.inverse_iff hprogram, h.stored.both_iff hprogram hstored',
    h.stored.definable_iff hprogram, helements]
  exact CrossReferences.enter_right_iff ((h.stored.inverse_iff hprogram).1 h.inverse)

theorem XrefStarts.stored (h : XrefStarts lib program table st) :
    XrefStored lib program table st := by
  refine ⟨h.ordered, fun n hn _ => h.fresh n hn, fun key v hv => ?_⟩
  rw [h.fresh _ (xrefElement_full program table key)] at hv
  cases hv

theorem XrefStarts.kept (hprogram : chr ')' ∉ program) (h : XrefStarts lib program table st) :
    XrefKept lib program table st := by
  refine ⟨h.stored, fun l key value _ hvalue => ?_⟩
  rw [h.stored.get hprogram, xrefElements_key,
    h.fresh _ (xrefElement_full program table key)] at hvalue
  cases hvalue

/-- Expressions that leave the elements as they are leave the table as it is. -/
theorem XrefStored.kept (h : XrefStored lib program table st) (hord : Ordered lib st')
    (hkept : ∀ n, XrefElement program table n → entry st' n = entry st n) :
    XrefStored lib program table st' ∧
      xrefElements program table st' = xrefElements program table st := by
  refine ⟨⟨hord, fun n hn hother => ?_, fun key v hv => ?_⟩, ?_⟩
  · rw [hkept n hn]
    exact h.others n hn hother
  · rw [hkept _ (xrefElement_full program table key)] at hv
    exact h.defined key v hv
  · funext k
    rw [xrefElements, hkept _ (xrefElement_full program table k.1)]
    rfl

theorem XrefKept.step (hprogram : chr ')' ∉ program) {p : Running Store}
    (h : XrefKept lib program table st) (hok : XrefRespects lang lib program label table st p)
    (hstep : xrefStep lang lib program label st p = some st') :
    XrefKept lib program table st' := by
  obtain ⟨hord, hkept, hdefinable⟩ := hok
  obtain ⟨hstored, hsame⟩ := h.stored.kept hord hkept
  have hread : XrefKept lib program table (xrefOperands lang (p.setUser st)).2.2.env.user := by
    refine ⟨hstored, ?_⟩
    rw [hstored.inverse_iff hprogram, hsame]
    exact (h.stored.inverse_iff hprogram).1 h.inverse
  unfold xrefStep cmdDefineXref at hstep
  rcases hoperands : xrefOperands lang (p.setUser st) with
    ⟨iret, _ | ⟨name, value1, value2⟩, q⟩
  · rw [hoperands] at hstep hread
    cases hstep
    exact hread
  · rw [hoperands] at hstep hread hdefinable hsame
    obtain ⟨hname, hpair⟩ := hdefinable name value1 value2 rfl
    obtain ⟨st₁, hst₁, hstored₁, hiff⟩ :=
      hread.entered hprogram hname (label q.programIdx) value1 value2
    rw [hread.stored.definable_iff hprogram, hsame, ← h.stored.definable_iff hprogram] at hiff
    change ((defineXref lib q.env.user ⟨program, label q.programIdx⟩ name value1 value2).map
      fun st => (iret, q.setUser st)).map _ = some st' at hstep
    rw [hst₁] at hstep
    have heq : st₁ = st' := Option.some.inj hstep
    rw [← heq]
    exact ⟨hstored₁, (hiff.2 hpair).1⟩

/-- After commands whose pairs are definable the two directions are inverse, and the next pair is
defined in both or in none, with the directions still inverse, just when it is definable. -/
theorem xrefs_inverse (hprogram : chr ')' ∉ program)
    (h : Runs.Reaches (xrefStep lang lib program label)
      (XrefRespects lang lib program label table) (XrefStarts lib program table) st) :
    XrefInverse lib program table st ∧
      ∀ name l value1 value2, cString name = cString table →
        ∃ st', defineXref lib st ⟨program, l⟩ name value1 value2 = some st' ∧
          ((XrefInverse lib program table st' ∧
            XrefBoth lib program table st st' value1 value2) ↔
            XrefDefinable lib st ⟨program, l⟩ table value1 value2) := by
  have hkept : XrefKept lib program table st := by
    refine h.invariant ?_ ?_
    · exact fun st hstart => hstart.kept hprogram
    · exact fun st p st' hst hok hstep => hst.step hprogram hok hstep
  refine ⟨hkept.inverse, fun name l value1 value2 hname => ?_⟩
  obtain ⟨st', hst', -, hiff⟩ := hkept.entered hprogram hname l value1 value2
  exact ⟨st', hst', hiff⟩

end

def textLanguage : Language Store where
  evaluateToken _ text _ := text
  expression tokens i st :=
    match tokens[i]? with
    | none => ⟨1, [], 0, i, st⟩
    | some t => ⟨0, t.text, 1, i, st⟩
  variableGet _ _ _ _ := none
  variablePut _ _ _ _ st := st
  label _ _ _ := none
  takeArguments _ _ _ st := (0, 0, st)
  command _ p := ⟨0, false, p⟩
  staleIdx := none

theorem number_text (text : Bytes) (h : TokenType.number.hasText = false) : text = [] := by
  cases h

def xrefCommand (x y : Bytes) : Running Store where
  tokens := [word (cstr "v"), mark .assign assign_hasText, ⟨.number, x, number_text x⟩,
    mark .comma comma_hasText, ⟨.number, y, number_text y⟩, mark .endOfLine endOfLine_hasText]
  programIdx := 0
  savedProgramIdx := 0
  env := ⟨⟨0, 0, 0, fun _ => none, fun _ => none, fun _ => none, fun _ => none, fun _ => none⟩, []⟩

abbrev xrefCommandStep : Store → Running Store → Option Store :=
  xrefStep textLanguage plainLibrary defaultProgram fun _ => []

/-- The pair of a command is definable in what has been reached. -/
theorem xrefRespects_command {st : Store} {x y : Bytes}
    (hst : XrefKept plainLibrary defaultProgram (cstr "v") st)
    (h : XrefDefinable plainLibrary st ⟨defaultProgram, []⟩ (cstr "v") x y) :
    XrefRespects textLanguage plainLibrary defaultProgram (fun _ => []) (cstr "v") st
      (xrefCommand x y) := by
  refine ⟨hst.stored.ordered, fun _ _ => rfl, ?_⟩
  intro name value1 value2 hread
  cases hread
  exact ⟨rfl, h⟩

/-- Two pairs are defined, and the first one a second time. -/
theorem xrefs_inverse_pairs :
    ∃ st, [xrefCommand (cstr "1") (cstr "2"), xrefCommand (cstr "3") (cstr "4"),
        xrefCommand (cstr "2") (cstr "1")].foldlM xrefCommandStep [] = some st ∧
      tableGet plainLibrary st topLevel (cstr "v") (cstr "4") = some (cstr "3") ∧
      XrefInverse plainLibrary defaultProgram (cstr "v") st := by
  have hprogram : chr ')' ∉ defaultProgram := List.not_mem_nil
  have hstart : XrefStarts plainLibrary defaultProgram (cstr "v") [] :=
    ⟨ordered_nil, fun _ _ => rfl⟩
  have hrun : ∃ st₁ st₂ st₃, xrefCommandStep [] (xrefCommand (cstr "1") (cstr "2")) = some st₁ ∧
      xrefCommandStep st₁ (xrefCommand (cstr "3") (cstr "4")) = some st₂ ∧
      xrefCommandStep st₂ (xrefCommand (cstr "2") (cstr "1")) = some st₃ ∧
      XrefDefinable plainLibrary st₁ ⟨defaultProgram, []⟩ (cstr "v") (cstr "3") (cstr "4") ∧
      XrefDefinable plainLibrary st₂ ⟨defaultProgram, []⟩ (cstr "v") (cstr "2") (cstr "1") ∧
      tableGet plainLibrary st₃ topLevel (cstr "v") (cstr "4") = some (cstr "3") :=
    ⟨_, _, _, rfl, rfl, rfl, .inr ⟨rfl, rfl, by decide, by decide⟩, .inl ⟨rfl, rfl⟩, rfl⟩
  obtain ⟨st₁, st₂, st₃, h₁, h₂, h₃, hnew, hboth, hfour⟩ := hrun
  have hok₁ := xrefRespects_command (hstart.kept hprogram)
    (.inr ⟨rfl, rfl, by decide, by decide⟩ : XrefDefinable plainLibrary [] ⟨defaultProgram, []⟩
      (cstr "v") (cstr "1") (cstr "2"))
  have hkept₁ := (hstart.kept hprogram).step hprogram hok₁ h₁
  have hok₂ := xrefRespects_command hkept₁ hnew
  have hkept₂ := hkept₁.step hprogram hok₂ h₂
  have hok₃ := xrefRespects_command hkept₂ hboth
  refine ⟨st₃, ?_, hfour, (xrefs_inverse hprogram
    ((((Runs.Reaches.start hstart).next hok₁ h₁).next hok₂ h₂).next hok₃ h₃)).1⟩
  rw [List.foldlM_cons, h₁, Option.bind_eq_bind, Option.bind_some, List.foldlM_cons, h₂,
    Option.bind_eq_bind, Option.bind_some, List.foldlM_cons, h₃]
  rfl

/-- The second command defines `v[3]` only. -/
theorem xrefs_not_always_inverse :
    ∃ st, [xrefCommand (cstr "1") (cstr "2"), xrefCommand (cstr "1") (cstr "3")].foldlM
        xrefCommandStep [] = some st ∧
      tableGet plainLibrary st topLevel (cstr "v") (cstr "3") = some (cstr "1") ∧
      tableGet plainLibrary st topLevel (cstr "v") (cstr "1") = some (cstr "2") ∧
      ¬ XrefInverse plainLibrary defaultProgram (cstr "v") st := by
  refine ⟨_, rfl, rfl, rfl, fun hinverse => ?_⟩
  have hback := hinverse [] (cstr "3") (cstr "1") (by decide) rfl
  exact absurd hback (by decide)

end ScOpen
