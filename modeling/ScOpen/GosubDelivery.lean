import ScOpen.GosubArguments
import ScOpen.StoreRuns

/-!
# The arguments that arrive

With a type of one byte the queue gives back what was put into it. With a wider one the length is
read from bytes that were never meant to be queued.
-/

namespace ScOpen

def gosubArgs (lib : StoreLibrary) (st : Store) (pos : Position) :
    List (UInt8 × Bytes) → List Argument
  | [] => []
  | (type, token) :: line =>
      if type = TT_COMMA then gosubArgs lib st pos line
      else if type = TT_IDENTIFIER then
        match variableGet lib st pos token .userRef with
        | none => []
        | some valu => ⟨type, valu⟩ :: gosubArgs lib st pos line
      else ⟨type, token⟩ :: gosubArgs lib st pos line

def paramNames (params : List (UInt8 × Bytes)) : List Bytes :=
  (params.filter fun p => p.1 = TT_IDENTIFIER).map Prod.snd

def Delivered (m : QueueMemory) (lib : StoreLibrary) (st : Store) (pos : Position) (iret : ℕ)
    (line params : List (UInt8 × Bytes)) : Prop :=
  (passArguments m lib st pos iret line params).taken =
    (paramNames params).zip (gosubArgs lib st pos line)

def QueueMemory.queueAll (m : QueueMemory) : ℕ → List Argument → Bytes
  | _, [] => []
  | k, a :: as => m.queue k a ++ m.queueAll (k + 1) as

section

variable {m : QueueMemory}

theorem queueAll_append (k : ℕ) (as : List Argument) (a : Argument) :
    m.queueAll k (as ++ [a]) = m.queueAll k as ++ m.queue (k + as.length) a := by
  induction as generalizing k with
  | nil => exact List.append_nil _
  | cons b as ih =>
      have hk : k + 1 + as.length = k + (b :: as).length := by
        rw [List.length_cons]
        omega
      rw [List.cons_append, QueueMemory.queueAll, QueueMemory.queueAll, ih, hk, List.append_assoc]

/-- The queue holds the arguments that were counted. -/
def Queued.Holds (m : QueueMemory) (q : Queued) : Prop := q.stack = m.queueAll 0 q.args

theorem Queued.Holds.push {q : Queued} (hq : q.Holds m) (iret : ℕ) (a : Argument) :
    (q.push m iret a).Holds m := by
  have happend := queueAll_append (m := m) 0 q.args a
  rw [Nat.zero_add] at happend
  change q.stack ++ m.queue q.args.length a = m.queueAll 0 (q.args ++ [a])
  rw [happend, hq]

theorem queueArguments_holds (lib : StoreLibrary) (st : Store) (pos : Position)
    (line : List (UInt8 × Bytes)) {q : Queued} (hq : q.Holds m) :
    (queueArguments m lib st pos line q).Holds m ∧
      (queueArguments m lib st pos line q).args = q.args ++ gosubArgs lib st pos line := by
  induction line generalizing q with
  | nil => exact ⟨hq, (List.append_nil _).symm⟩
  | cons t line ih =>
      obtain ⟨type, token⟩ := t
      rw [queueArguments, gosubArgs]
      by_cases hcomma : type = TT_COMMA
      · rw [if_pos hcomma, if_pos hcomma]
        exact ih hq
      rw [if_neg hcomma, if_neg hcomma]
      by_cases hident : type = TT_IDENTIFIER
      · rw [if_pos hident, if_pos hident]
        cases variableGet lib st pos token .userRef with
        | none => exact ⟨hq, (List.append_nil _).symm⟩
        | some valu =>
            obtain ⟨hholds, hargs⟩ := ih (hq.push 0 ⟨type, valu⟩)
            exact ⟨hholds, hargs.trans (List.append_assoc _ _ _)⟩
      · rw [if_neg hident, if_neg hident]
        obtain ⟨hholds, hargs⟩ := ih (hq.push q.iret ⟨type, token⟩)
        exact ⟨hholds, hargs.trans (List.append_assoc _ _ _)⟩

theorem passArguments_eq (lib : StoreLibrary) (st : Store) (pos : Position) (iret : ℕ)
    (line params : List (UInt8 × Bytes)) :
    ∃ iret', passArguments m lib st pos iret line params =
      takeArguments m (m.queueAll 0 (gosubArgs lib st pos line)) params
        ⟨iret', (gosubArgs lib st pos line).length, 0, []⟩ := by
  have hq : Queued.Holds m ⟨iret, [], []⟩ := rfl
  obtain ⟨hholds, hargs⟩ := queueArguments_holds lib st pos line hq
  refine ⟨(queueArguments m lib st pos line ⟨iret, [], []⟩).iret, ?_⟩
  rw [passArguments, hholds, hargs]
  rfl

/-! ## A type of one byte -/

theorem read_left {stack text rest : Bytes} {ptr n : ℕ} (h : stack.drop ptr = text ++ rest)
    (hn : text.length = n) : m.read stack ptr n = text := by
  rw [QueueMemory.read, h, bytesAt_left hn]

/-- What is behind what was read. -/
theorem drop_left {stack text rest : Bytes} {ptr n : ℕ} (h : stack.drop ptr = text ++ rest)
    (hn : text.length = n) : stack.drop (ptr + n) = rest := by
  rw [← List.drop_drop, h, ← hn, List.drop_left]

theorem queue_narrow (hm : m.sizeofType = 1) (k : ℕ) (a : Argument) :
    m.queue k a = [a.type] ++ (leBytes 4 a.value.length ++ a.value) := by
  have htype : [a.type].length = 1 := rfl
  rw [QueueMemory.queue, hm, bytesAt_of_le htype.ge]
  rfl

theorem dequeue_queue (hm : m.sizeofType = 1) {a : Argument} (hfits : a.value.length < 2 ^ 32)
    {stack rest : Bytes} {ptr k : ℕ} (h : stack.drop ptr = m.queue k a ++ rest) :
    m.dequeue stack ptr = a ∧ stack.drop (ptr + 5 + a.value.length) = rest := by
  rw [queue_narrow hm, List.append_assoc, List.append_assoc] at h
  have htype : [a.type].length = 1 := rfl
  have hlength := drop_left h htype
  have hdata := drop_left hlength (length_leBytes _ _)
  rw [Nat.add_assoc] at hdata
  have hvalue : leValue (leBytes 4 a.value.length) = a.value.length := by
    rw [leValue_leBytes]
    exact Nat.mod_eq_of_lt (hfits.trans_le (by decide))
  refine ⟨?_, drop_left hdata rfl⟩
  rw [QueueMemory.dequeue, read_left h htype, read_left hlength (length_leBytes _ _), hvalue,
    read_left hdata rfl]
  rfl

theorem paramNames_comma {type : UInt8} (h : type = TT_COMMA) (name : Bytes)
    (params : List (UInt8 × Bytes)) :
    paramNames ((type, name) :: params) = paramNames params := by
  subst h
  rfl

theorem paramNames_identifier {type : UInt8} (h : type = TT_IDENTIFIER) (name : Bytes)
    (params : List (UInt8 × Bytes)) :
    paramNames ((type, name) :: params) = name :: paramNames params := by
  subst h
  rfl

def LabelLine (params : List (UInt8 × Bytes)) : Prop :=
  ∀ p ∈ params, p.1 = TT_COMMA ∨ p.1 = TT_IDENTIFIER

theorem takeArguments_narrow {stack : Bytes} {params : List (UInt8 × Bytes)}
    (hparams : LabelLine params) {as : List Argument} (hm : as = [] ∨ m.sizeofType = 1)
    (hfits : ∀ a ∈ as, a.value.length < 2 ^ 32)
    (hcount : (paramNames params).length = as.length) {k : ℕ} {t : Taken}
    (hstack : stack.drop t.ptr = m.queueAll k as) (hargs : t.argCnt = as.length) :
    (takeArguments m stack params t).taken = t.taken ++ (paramNames params).zip as := by
  induction params generalizing as k t with
  | nil => exact (List.append_nil _).symm
  | cons p params ih =>
      obtain ⟨type, name⟩ := p
      have hrest : LabelLine params := fun p hp => hparams p (List.mem_cons_of_mem _ hp)
      rw [takeArguments]
      by_cases hcomma : type = TT_COMMA
      · rw [if_pos hcomma]
        rw [paramNames_comma hcomma] at hcount ⊢
        exact ih hrest hm hfits hcount hstack hargs
      have hident : type = TT_IDENTIFIER := (hparams _ List.mem_cons_self).resolve_left hcomma
      rw [if_neg hcomma, if_pos hident]
      rw [paramNames_identifier hident] at hcount ⊢
      cases as with
      | nil => cases hcount
      | cons a as =>
          rw [if_neg (by rw [hargs]; exact Nat.succ_ne_zero _)]
          have hone := hm.resolve_left (List.cons_ne_nil a as)
          obtain ⟨hfirst, hbehind⟩ := dequeue_queue hone (hfits a List.mem_cons_self) hstack
          have hleft : t.argCnt - 1 = as.length := by
            rw [hargs, List.length_cons, Nat.add_sub_cancel]
          have hrun := ih hrest (.inr hone) (fun b hb => hfits b (List.mem_cons_of_mem _ hb))
            (Nat.succ.inj hcount) (k := k + 1) (t := ⟨t.iret, t.argCnt - 1,
              t.ptr + 5 + a.value.length, t.taken ++ [(name, a)]⟩) hbehind hleft
          simp only [hfirst]
          rw [hrun, List.append_assoc]
          rfl

/-! ## A wider type -/

theorem taken_prefix (stack : Bytes) (params : List (UInt8 × Bytes)) (t : Taken) :
    ∃ more, (takeArguments m stack params t).taken = t.taken ++ more := by
  induction params generalizing t with
  | nil => exact ⟨[], (List.append_nil _).symm⟩
  | cons p params ih =>
      obtain ⟨type, name⟩ := p
      rw [takeArguments]
      split_ifs
      · exact ih t
      · exact ⟨[], (List.append_nil _).symm⟩
      · obtain ⟨more, hmore⟩ := ih ⟨t.iret, t.argCnt - 1,
          t.ptr + 5 + (m.dequeue stack t.ptr).value.length,
          t.taken ++ [(name, m.dequeue stack t.ptr)]⟩
        exact ⟨_, hmore.trans (List.append_assoc _ _ _)⟩
      · exact ⟨[], (List.append_nil _).symm⟩

/-- The first argument that is taken. -/
theorem taken_first (stack : Bytes) {params : List (UInt8 × Bytes)} (hparams : LabelLine params)
    (hsome : paramNames params ≠ []) (iret n : ℕ) :
    ∃ name more, (takeArguments m stack params ⟨iret, n + 1, 0, []⟩).taken =
      (name, m.dequeue stack 0) :: more := by
  induction params with
  | nil => exact absurd rfl hsome
  | cons p params ih =>
      obtain ⟨type, name⟩ := p
      rw [takeArguments]
      by_cases hcomma : type = TT_COMMA
      · rw [if_pos hcomma]
        rw [paramNames_comma hcomma] at hsome
        exact ih (fun p hp => hparams p (List.mem_cons_of_mem _ hp)) hsome
      have hident : type = TT_IDENTIFIER := (hparams _ List.mem_cons_self).resolve_left hcomma
      rw [if_neg hcomma, if_pos hident, if_neg (Nat.succ_ne_zero _)]
      obtain ⟨more, hmore⟩ := taken_prefix (m := m) stack params
        ⟨iret, n + 1 - 1, 0 + 5 + (m.dequeue stack 0).value.length,
          [] ++ [(name, m.dequeue stack 0)]⟩
      exact ⟨name, more, hmore⟩

theorem dequeue_length (stack : Bytes) (ptr : ℕ) :
    (m.dequeue stack ptr).value.length = leValue (m.read stack (ptr + 1) 4) := bytesAt_length _ _ _

/-- The low byte of a length is the first of its bytes. -/
theorem leValue_mod (b : UInt8) (bs : Bytes) : leValue (b :: bs) % 256 = b.toNat := by
  have hb : b.toNat < 256 := b.toNat_lt
  rw [leValue]
  omega

theorem read_head (stack : Bytes) (ptr n : ℕ) :
    ∃ bs, m.read stack ptr (n + 1) = stack[ptr]?.getD (m.behind ptr) :: bs := by
  refine ⟨(m.read stack ptr (n + 1)).tail, ?_⟩
  have hhead := bytesAt_getElem? (fun i => m.behind (ptr + i)) (stack.drop ptr) (Nat.succ_pos n)
  rw [List.getElem?_drop, Nat.add_zero] at hhead
  change (m.read stack ptr (n + 1))[0]? = _ at hhead
  cases hread : m.read stack ptr (n + 1) with
  | nil =>
      rw [hread] at hhead
      cases hhead
  | cons b bs =>
      rw [hread] at hhead
      cases hhead
      rfl

/-- The low byte of the length that is read lies behind the variable of the type. -/
theorem dequeue_wide (hm : 2 ≤ m.sizeofType) (a : Argument) (rest : Bytes) :
    (m.dequeue (m.queue 0 a ++ rest) 0).value.length % 256 = (m.beside 0 1).toNat := by
  have hbyte : (m.queue 0 a ++ rest)[0 + 1]? = some (m.beside 0 1) := by
    have hlt : 1 < (bytesAt (m.beside 0) [a.type] m.sizeofType).length := by
      rw [bytesAt_length]
      exact hm
    rw [QueueMemory.queue, List.append_assoc, List.getElem?_append_left hlt,
      bytesAt_getElem? _ _ hm]
    rfl
  obtain ⟨bs, hbs⟩ := read_head (m := m) (m.queue 0 a ++ rest) (0 + 1) 3
  rw [dequeue_length, hbs, hbyte]
  exact leValue_mod _ _

end

/-- Memory in which one and the same byte lies behind the variable of the type. -/
def besideType (w : ℕ) (b : UInt8) : QueueMemory := ⟨w, fun _ _ => b, fun _ => 0⟩

theorem exists_other_length (n : ℕ) : ∃ b : UInt8, b.toNat ≠ n % 256 := by
  by_cases hn : n % 256 = 0
  · exact ⟨1, by rw [hn]; decide⟩
  · exact ⟨0, fun heq => hn heq.symm⟩

/-- A length whose low byte is another one than that of the first argument. -/
theorem not_delivered {w : ℕ} (hw : 2 ≤ w) {b : UInt8} (lib : StoreLibrary) (st : Store)
    (pos : Position) (iret : ℕ) {line params : List (UInt8 × Bytes)} (hparams : LabelLine params)
    {a : Argument} {as : List Argument} (hargs : gosubArgs lib st pos line = a :: as)
    (hcount : (paramNames params).length = (a :: as).length)
    (hb : b.toNat ≠ a.value.length % 256) :
    ¬ Delivered (besideType w b) lib st pos iret line params := by
  intro hdelivered
  have hnames : paramNames params ≠ [] := List.ne_nil_of_length_eq_add_one hcount
  obtain ⟨iret', hpass⟩ := passArguments_eq (m := besideType w b) lib st pos iret line params
  obtain ⟨name, more, hfirst⟩ := taken_first (m := besideType w b)
    ((besideType w b).queueAll 0 (a :: as)) hparams hnames iret' as.length
  obtain ⟨p, ps, hps⟩ := List.exists_cons_of_ne_nil hnames
  rw [Delivered, hpass, hargs, hps] at hdelivered
  have htaken : (name, (besideType w b).dequeue ((besideType w b).queueAll 0 (a :: as)) 0) :: more =
      (p, a) :: ps.zip as := hfirst.symm.trans hdelivered
  have harg := (Prod.mk.inj (List.cons.inj htaken).1).2
  have hlow := dequeue_wide (m := besideType w b) hw a ((besideType w b).queueAll 1 as)
  change ((besideType w b).dequeue ((besideType w b).queueAll 0 (a :: as)) 0).value.length % 256 =
    b.toNat at hlow
  rw [harg] at hlow
  exact hb hlow.symm

/-- The arguments arrive, whatever lies in memory, exactly when there are none or a type has the
width of a byte. -/
theorem arguments_delivered_iff (lib : StoreLibrary) (st : Store) (pos : Position) (iret : ℕ)
    (line params : List (UInt8 × Bytes)) (w : ℕ) (hw : 0 < w) (hparams : LabelLine params)
    (hcount : (paramNames params).length = (gosubArgs lib st pos line).length)
    (hfits : ∀ a ∈ gosubArgs lib st pos line, a.value.length < 2 ^ 32) :
    (∀ m : QueueMemory, m.sizeofType = w → Delivered m lib st pos iret line params) ↔
      gosubArgs lib st pos line = [] ∨ w = 1 := by
  constructor
  · intro h
    by_contra hnot
    obtain ⟨hsome, hone⟩ := not_or.1 hnot
    obtain ⟨a, as, has⟩ := List.exists_cons_of_ne_nil hsome
    obtain ⟨b, hb⟩ := exists_other_length a.value.length
    rw [has] at hcount
    exact not_delivered (by omega) lib st pos iret hparams has hcount hb (h (besideType w b) rfl)
  · intro h m hm
    obtain ⟨iret', hpass⟩ := passArguments_eq (m := m) lib st pos iret line params
    rw [Delivered, hpass]
    rw [← hm] at h
    exact takeArguments_narrow hparams h hfits hcount rfl rfl

/-- The arguments arrive, and each is what its parameter stands for: a local variable with the
value, or a reference to the variable. -/
structure GosubRight (m : QueueMemory) (lib : StoreLibrary) (st : Store) (caller callee : Position)
    (nest idx : Bytes) (iret : ℕ) (line params : List (UInt8 × Bytes)) : Prop where
  delivered : Delivered m lib st caller iret line params
  becomes : ∀ iret' st',
    gosubVariables m lib st caller callee nest idx iret line params = some (iret', st') →
    ∀ p ∈ (paramNames params).zip (gosubArgs lib st caller line),
      ∃ v, entry st' (labelKey .userLocal callee p.1) = some v ∧ v.value = p.2.value ∧
        (v.type = .userRef ↔ p.2.type = TT_IDENTIFIER)

/-- A gosub passes its arguments right, whatever lies in memory, exactly when it has none. -/
theorem gosub_right_iff (lib : StoreLibrary) (st : Store) (caller callee : Position)
    (nest idx : Bytes) (iret : ℕ) (line params : List (UInt8 × Bytes))
    (hparams : LabelLine params)
    (hcount : (paramNames params).length = (gosubArgs lib st caller line).length)
    (hfits : ∀ a ∈ gosubArgs lib st caller line, a.value.length < 2 ^ 32) :
    (∀ m : QueueMemory, m.sizeofType = sizeofTokenTypes →
        GosubRight m lib st caller callee nest idx iret line params) ↔
      gosubArgs lib st caller line = [] := by
  have hdelivered := arguments_delivered_iff lib st caller iret line params sizeofTokenTypes
    (by decide) hparams hcount hfits
  constructor
  · intro h
    refine (hdelivered.1 fun m hm => (h m hm).delivered).resolve_right ?_
    decide
  · intro hnil m hm
    refine ⟨hdelivered.2 (.inl hnil) m hm, fun iret' st' _ p hp => ?_⟩
    rw [hnil, List.zip_nil_right] at hp
    cases hp

theorem labelLine_param (name : Bytes) : LabelLine [(TT_IDENTIFIER, name)] := by
  intro p hp
  rw [List.mem_singleton.1 hp]
  exact .inr rfl

theorem gosub_right_iff_number :
    (∀ m : QueueMemory, m.sizeofType = sizeofTokenTypes →
        GosubRight m plainLibrary [] topLevel ⟨defaultProgram, cstr "s"⟩ (cstr "1") (cstr "4") 0
          [(TT_NUMBER, cstr "5")] [(TT_IDENTIFIER, cstr "p")]) ↔
      gosubArgs plainLibrary [] topLevel [(TT_NUMBER, cstr "5")] = [] := by
  refine gosub_right_iff plainLibrary [] topLevel ⟨defaultProgram, cstr "s"⟩ (cstr "1") (cstr "4") 0
    [(TT_NUMBER, cstr "5")] [(TT_IDENTIFIER, cstr "p")] (labelLine_param _) rfl fun a ha => ?_
  have heq : a = ⟨TT_NUMBER, cstr "5"⟩ := List.mem_singleton.1 ha
  rw [heq]
  decide

/-- A number that is passed where zeros lie in memory. -/
theorem gosub_not_always_right :
    ¬ GosubRight (besideType sizeofTokenTypes 0) plainLibrary [] topLevel
      ⟨defaultProgram, cstr "s"⟩ (cstr "1") (cstr "4") 0 [(TT_NUMBER, cstr "5")]
      [(TT_IDENTIFIER, cstr "p")] := by
  intro h
  exact not_delivered (by decide) plainLibrary [] topLevel 0 (labelLine_param _) rfl rfl (by decide)
    h.delivered

end ScOpen
