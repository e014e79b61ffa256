import ScOpen.EncodedItems
import ScOpen.ListCounts
import ScOpen.SecsEncodeRight
import ScOpen.StructuredWhiles

/-!
# Writing lists with loops

The encoder is a walk over the body of a list too: it counts each list inside before it goes into
it. As long as no bound depends on what a count has set, a list is written with as many items as
its header announces.
-/

namespace ScOpen

open Agreement

/-! ## Marks of whole items -/

/-- Every list's header announces the items up to the bracket that closes the list. -/
def ListsRight : List Mark → Prop
  | [] => True
  | .list ahead :: ms => outerOpens 0 ahead = itemCount (inside 0 ms) ∧ ListsRight ms
  | _ :: ms => ListsRight ms

structure Whole (ms : List Mark) (k : ℕ) : Prop where
  inside_append : ∀ d rest, inside d (ms ++ rest) = ms ++ inside d rest
  beyond_append : ∀ d rest, beyond d (ms ++ rest) = beyond d rest
  itemCount_append : ∀ rest, itemCount (ms ++ rest) = k + itemCount rest
  lists_append : ∀ rest, ListsRight rest → ListsRight (ms ++ rest)

theorem Whole.nil : Whole [] 0 where
  inside_append _ _ := rfl
  beyond_append _ _ := rfl
  itemCount_append rest := (Nat.zero_add (itemCount rest)).symm
  lists_append _ h := h

theorem Whole.append {ms ms' : List Mark} {j k : ℕ} (h : Whole ms j) (h' : Whole ms' k) :
    Whole (ms ++ ms') (j + k) where
  inside_append d rest := by
    rw [List.append_assoc, h.inside_append, h'.inside_append, List.append_assoc]
  beyond_append d rest := by
    rw [List.append_assoc, h.beyond_append, h'.beyond_append]
  itemCount_append rest := by
    rw [List.append_assoc, h.itemCount_append, h'.itemCount_append, Nat.add_assoc]
  lists_append rest hrest := by
    rw [List.append_assoc]
    exact h.lists_append _ (h'.lists_append rest hrest)

theorem Whole.item (t : SecsType) (ht : t ≠ .list) (texts : List Bytes) :
    Whole [.opened, .item t ht texts, .closed] 1 where
  inside_append d rest := by
    cases d <;> simp only [List.cons_append, List.nil_append, inside]
  beyond_append d rest := by
    cases d <;> simp only [List.cons_append, List.nil_append, beyond]
  itemCount_append rest := by
    simp only [List.cons_append, List.nil_append, itemCount]
    exact Nat.add_comm _ _
  lists_append rest hrest := hrest

/-- A list whose header announces its `k` items. -/
theorem Whole.list {ms : List Mark} {k : ℕ} (h : Whole ms k) {ahead : List TokenType}
    (hahead : outerOpens 0 ahead = k) : Whole (.opened :: .list ahead :: (ms ++ [.closed])) 1 where
  inside_append d rest := by
    simp only [List.cons_append, List.append_assoc, List.nil_append, inside, h.inside_append]
  beyond_append d rest := by
    simp only [List.cons_append, List.append_assoc, List.nil_append, beyond, h.beyond_append]
  itemCount_append rest := by
    simp only [List.cons_append, List.append_assoc, List.nil_append, itemCount, h.beyond_append,
      beyond]
    exact Nat.add_comm _ _
  lists_append rest hrest := by
    have hinside : itemCount (inside 0 (ms ++ .closed :: rest)) = k := by
      rw [h.inside_append, h.itemCount_append, inside, itemCount, Nat.add_zero]
    simp only [List.cons_append, List.append_assoc, List.nil_append, ListsRight, hinside]
    exact ⟨hahead, h.lists_append _ hrest⟩

section

variable {σ κ : Type} (lang : Language σ) (place : ℕ) (scan : FloatScan) {tokens : List Token}

/-! ## The encoder at a token -/

def WritesTo (cmds : EncodeCommands σ) (scan : FloatScan) (p q : Program σ) (k : ℕ) : Prop :=
  ∃ used need, ∀ n, need ≤ n → ∃ ms, Whole ms k ∧
    readMarks cmds scan (n + used) p = ms ++ readMarks cmds scan n q

theorem WritesTo.refl (cmds : EncodeCommands σ) (scan : FloatScan) (p : Program σ) :
    WritesTo cmds scan p p 0 :=
  ⟨0, 0, fun _ _ => ⟨[], Whole.nil, rfl⟩⟩

theorem WritesTo.trans {cmds : EncodeCommands σ} {scan : FloatScan} {p q r : Program σ} {j k : ℕ}
    (h : WritesTo cmds scan p q j) (h' : WritesTo cmds scan q r k) :
    WritesTo cmds scan p r (j + k) := by
  obtain ⟨used, need, h⟩ := h
  obtain ⟨used', need', h'⟩ := h'
  refine ⟨used' + used, need + need', fun n hn => ?_⟩
  obtain ⟨ms', hwhole', hrun'⟩ := h' n ((Nat.le_add_left _ _).trans hn)
  obtain ⟨ms, hwhole, hrun⟩ := h (n + used')
    ((Nat.le_add_right _ _).trans (hn.trans (Nat.le_add_right _ _)))
  refine ⟨ms ++ ms', hwhole.append hwhole', ?_⟩
  rw [← Nat.add_assoc, hrun, hrun', List.append_assoc]

theorem WritesTo.token {cmds : EncodeCommands σ} {scan : FloatScan} {p q : Program σ}
    (h : ∀ n, readMarks cmds scan (n + 1) p = readMarks cmds scan n q) :
    WritesTo cmds scan p q 0 :=
  ⟨1, 0, fun n _ => ⟨[], Whole.nil, h n⟩⟩

theorem readMarks_line {i : ℕ} (l : LineToken) (h : [l.token] <+: tokens.drop i) (n saved : ℕ)
    (env : InterpEnv σ) :
    readMarks (messageCommands lang place) scan (n + 1) ⟨tokens, i, saved, env⟩ =
      readMarks (messageCommands lang place) scan n ⟨tokens, i + 1, i, env⟩ := by
  obtain ⟨text, -, hget⟩ := message_token lang place h saved env
  rw [readMarks]
  rcases l.isLine with hl | hl <;> simp only [hget, hl]

theorem readMarks_lines {i : ℕ} (ls : List LineToken)
    (h : ls.map LineToken.token <+: tokens.drop i) (saved : ℕ) (env : InterpEnv σ) :
    ∃ saved', ∀ n, readMarks (messageCommands lang place) scan (n + ls.length)
        ⟨tokens, i, saved, env⟩ =
      readMarks (messageCommands lang place) scan n ⟨tokens, i + ls.length, saved', env⟩ := by
  induction ls generalizing i saved with
  | nil => exact ⟨saved, fun n => rfl⟩
  | cons l ls ih =>
      obtain ⟨saved', hrest⟩ := ih (segment_tail h) i
      refine ⟨saved', fun n => ?_⟩
      rw [List.length_cons, ← Nat.add_assoc,
        readMarks_line lang place scan l ((List.prefix_append [l.token] _).trans h), hrest,
        Nat.add_assoc,
        Nat.add_comm 1]

theorem readMarks_lessThan {i : ℕ} (h : [mark .lessThan rfl] <+: tokens.drop i) (n saved : ℕ)
    (env : InterpEnv σ) :
    readMarks (messageCommands lang place) scan (n + 1) ⟨tokens, i, saved, env⟩ =
      .opened :: readMarks (messageCommands lang place) scan n ⟨tokens, i + 1, i, env⟩ := by
  obtain ⟨text, -, hget⟩ := message_token lang place h saved env
  rw [readMarks]
  simp only [hget, mark]

theorem readMarks_greaterThan {i : ℕ} (h : [mark .greaterThan rfl] <+: tokens.drop i) (n saved : ℕ)
    (env : InterpEnv σ) :
    readMarks (messageCommands lang place) scan (n + 1) ⟨tokens, i, saved, env⟩ =
      .closed :: readMarks (messageCommands lang place) scan n ⟨tokens, i + 1, i, env⟩ := by
  obtain ⟨text, -, hget⟩ := message_token lang place h saved env
  rw [readMarks]
  simp only [hget, mark]

/-- The encoder at the word of an item. -/
theorem readMarks_item {i : ℕ} {w : Token} (h : [w] <+: tokens.drop i) (hw : w.IsWord)
    {t : SecsType} (ht : t ≠ .list)
    (hbranch : branchOf scan w.text = .item t t.minus (t.convert scan)) {n saved : ℕ}
    {env : InterpEnv σ} {texts : List Bytes} {q : Running σ}
    (htexts : readTexts (messageCommands lang place) t.minus n ⟨tokens, i + 1, i, env⟩ =
      some (texts, [], q)) :
    readMarks (messageCommands lang place) scan (n + 1) ⟨tokens, i, saved, env⟩ =
      .item t ht texts :: readMarks (messageCommands lang place) scan n q := by
  obtain ⟨text, htext, hget⟩ := message_token lang place h saved env
  obtain rfl : text = w.text := htext hw.ne_variable
  rw [readMarks]
  rcases hw with hw | hw | hw | hw
  all_goals
    simp only [hget, hw]
    split <;> rename_i hb <;> rw [hget] at hb <;> cases hbranch.symm.trans hb
    simp only [htexts, List.nil_append]

/-- The encoder at the word of a list. -/
theorem readMarks_list {i : ℕ} {w : Token} (h : [w] <+: tokens.drop i) (hw : w.IsWord)
    (hnamed : firstByte w.text = chr 'L') (saved : ℕ) {n k : ℕ} {env : InterpEnv σ} {q : Running σ}
    (hcount : getNumListElements (messageCommands lang place) n ⟨tokens, i + 1, i, env⟩ =
      some (k, q)) :
    ∃ ahead, outerOpens 0 ahead = k ∧
      readMarks (messageCommands lang place) scan (n + 1) ⟨tokens, i, saved, env⟩ =
        .list ahead :: readMarks (messageCommands lang place) scan n q := by
  obtain ⟨text, htext, hget⟩ := message_token lang place h saved env
  obtain rfl : text = w.text := htext hw.ne_variable
  have hbranch : branchOf scan w.text = .list := if_pos hnamed
  obtain ⟨⟨c, p'⟩, hloop, hq⟩ := Option.bind_eq_some_iff.1 hcount
  cases hq
  refine ⟨readAhead (messageCommands lang place) n 0 ⟨tokens, i + 1, i, env⟩, ?_, ?_⟩
  · rw [countLoop_ahead _ hloop, Nat.zero_add]
  · rw [readMarks]
    rcases hw with hw | hw | hw | hw
    all_goals
      simp only [hget, hw]
      split <;> rename_i hb <;> rw [hget] at hb <;> cases hbranch.symm.trans hb
      simp only [hcount]

theorem writesTo_for {i : ℕ} (saved : ℕ) {env : InterpEnv σ} {q : Running σ}
    (h : [mark .for_ rfl] <+: tokens.drop i)
    (hfor : cmdFor lang ⟨tokens, i + 1, i, env⟩ = (0, q)) :
    WritesTo (messageCommands lang place) scan ⟨tokens, i, saved, env⟩ q 0 := by
  obtain ⟨text, htext, hget⟩ := message_token lang place h saved env
  obtain rfl : text = [] := htext nofun
  have hcmd : (messageCommands lang place).cmdFor ⟨tokens, i + 1, i, env⟩ = (0, q) := hfor
  have hbranch : branchOf scan [] = .other := rfl
  refine .token fun n => ?_
  rw [readMarks]
  simp only [hget, mark]
  split <;> rename_i hb <;> rw [hget] at hb <;> cases hbranch.symm.trans hb
  simp only [if_true, hcmd, ne_eq, not_true_eq_false, if_false]

theorem writesTo_next {i : ℕ} (saved : ℕ) {env : InterpEnv σ} {q : Running σ}
    (h : [mark .next rfl] <+: tokens.drop i)
    (hnext : cmdNext lang ⟨tokens, i + 1, i, env⟩ = some (0, q)) :
    WritesTo (messageCommands lang place) scan ⟨tokens, i, saved, env⟩ q 0 := by
  obtain ⟨text, htext, hget⟩ := message_token lang place h saved env
  obtain rfl : text = [] := htext nofun
  have hcmd : (messageCommands lang place).cmdNext ⟨tokens, i + 1, i, env⟩ = (0, q) := by
    simp only [messageCommands, hnext, Option.getD_some]
  have hbranch : branchOf scan [] = .other := rfl
  refine .token fun n => ?_
  rw [readMarks]
  simp only [hget, mark]
  split <;> rename_i hb <;> rw [hget] at hb <;> cases hbranch.symm.trans hb
  simp only [reduceCtorEq, if_true, hcmd, ne_eq, not_true_eq_false, if_false]

theorem bracketOf_value {type : TokenType} (h : type.isValue = true) : bracketOf type = [] := by
  cases type <;> first
    | rfl
    | cases h

theorem readTexts_values {minus : Bool} {ts : List Token} (hts : ValueTokens minus ts) {i : ℕ}
    (h : (ts ++ [mark .greaterThan rfl]) <+: tokens.drop i) (n saved : ℕ) (env : InterpEnv σ) :
    ∃ texts, readTexts (messageCommands lang place) minus (n + ts.length + 1)
      ⟨tokens, i, saved, env⟩ =
        some (texts, [], ⟨tokens, i + ts.length, i + ts.length, env⟩) := by
  induction hts generalizing i n saved with
  | nil =>
      obtain ⟨text, -, hget⟩ := message_token lang place h saved env
      refine ⟨[], ?_⟩
      rw [readTexts]
      simp only [hget, mark, if_true]
      rfl
  | @one t ts ht hminus _ ih =>
      obtain ⟨text, -, hget⟩ := message_token lang place ((List.prefix_append [t] _).trans h)
        saved env
      obtain ⟨texts, hrest⟩ := ih (segment_tail h) n i
      have hgt : t.type ≠ .greaterThan := by
        rintro hgt
        rw [hgt] at ht
        cases ht
      refine ⟨text :: texts, ?_⟩
      rw [List.length_cons, readTexts]
      simp only [hget, hgt, if_false, not_and.2 hminus, ← Nat.add_assoc, hrest,
        bracketOf_value ht, List.nil_append, Option.bind_eq_bind, Option.bind_some]
      rw [Nat.add_right_comm]
      rfl
  | @signed m t ts hminus hm ht _ ih =>
      obtain ⟨text, -, hget⟩ := message_token lang place ((List.prefix_append [m] _).trans h)
        saved env
      obtain ⟨text', -, hget'⟩ := message_token lang place
        ((List.prefix_append [t] _).trans (segment_tail h)) i env
      obtain ⟨texts, hrest⟩ := ih (segment_tail (segment_tail h)) (n + 1) (i + 1)
      rw [Nat.add_right_comm n 1] at hrest
      refine ⟨(chr '-' :: cString text') :: texts, ?_⟩
      rw [List.length_cons, List.length_cons, readTexts]
      simp only [hget, hm, reduceCtorEq, and_self, if_false, if_true, hget', ← Nat.add_assoc,
        hminus] at hrest ⊢
      have hplace : i + 1 + 1 + ts.length = i + ts.length + 1 + 1 := by omega
      rw [hrest, bracketOf_value ht, hplace]
      rfl

/-! ## The encoder is a walk -/

theorem writesTo_item {i : ℕ} (d : DataItem) (saved : ℕ) (env : InterpEnv σ)
    (h : d.tokens <+: tokens.drop i) :
    WritesTo (messageCommands lang place) scan ⟨tokens, i, saved, env⟩
      ⟨tokens, i + d.tokens.length, i + d.tokens.length - 1, env⟩ 1 := by
  have hgap := segment_tail h
  have hword := segment_drop hgap
  have hvalues := segment_tail hword
  rw [List.length_map] at hword hvalues
  have hgt := segment_drop hvalues
  obtain ⟨saved₁, hlines⟩ := readMarks_lines lang place scan d.gap
    ((List.prefix_append _ _).trans hgap) i env
  refine ⟨1 + 1 + d.gap.length + 1, d.values.length, fun n hn => ?_⟩
  obtain ⟨m, rfl⟩ := Nat.exists_eq_add_of_le' hn
  obtain ⟨texts, htexts⟩ := readTexts_values lang place d.areValues hvalues
    m (i + 1 + d.gap.length) env
  refine ⟨_, Whole.item d.type d.isData texts, ?_⟩
  have hidx : i + d.tokens.length = i + 1 + d.gap.length + 1 + d.values.length + 1 := by
    simp only [DataItem.tokens, List.length_cons, List.length_append, List.length_map,
      List.length_nil]
    omega
  simp only [← Nat.add_assoc]
  rw [readMarks_lessThan lang place scan ((List.prefix_append [_] _).trans h), hlines,
    readMarks_item lang place scan ((List.prefix_append [_] _).trans hword) d.isWord d.isData
      (d.named scan) htexts,
    readMarks_greaterThan lang place scan hgt, hidx]
  rfl

theorem write_walker (tokens : List Token) :
    Walker lang tokens (WritesTo (messageCommands lang place) scan) where
  refl := WritesTo.refl _ scan
  trans := WritesTo.trans
  line l saved env h := .token fun n => readMarks_line lang place scan l h n saved env
  item d saved env h := ⟨_, writesTo_item lang place scan d saved env h⟩
  for_ := writesTo_for lang place scan
  next := writesTo_next lang place scan

/-- A list is counted and then gone over again, from what the count has left. -/
theorem write_lists (vars : Variables σ κ) (tokens : List Token) :
    Walker.Lists vars lang tokens (WritesTo (messageCommands lang place) scan) := by
  intro D S u u' v j i saved c w kids hpass hv hword hkids hgt
  have hgap := segment_tail hword
  have hlast := segment_drop hgap
  rw [List.length_map] at hlast
  have hidx : i + w.tokens.length = i + 1 + w.gap.length + 1 := by
    simp only [ListWord.tokens, List.length_cons, List.length_append, List.length_map,
      List.length_nil]
    omega
  obtain ⟨saved₁, hlines⟩ := readMarks_lines lang place scan w.gap
    ((List.prefix_append _ _).trans hgap) i ⟨c, v⟩
  obtain ⟨v₁, saved₂, c₁, -, hv₁, hc₁, m, hcount⟩ := hpass.counts (hv.mono Set.subset_union_left)
    hkids hgt place (i + 1 + w.gap.length) c
  refine ⟨v₁, saved₂, c₁, hv₁, hc₁, fun saved₃ env hwrites => ?_⟩
  obtain ⟨used, need, hwrites⟩ := hwrites
  refine ⟨1 + used + 1 + w.gap.length + 1, need + m, fun n hn => ?_⟩
  obtain ⟨ms, hwhole, hrun⟩ := hwrites (n + 1) (by omega)
  obtain ⟨n', hn'⟩ := Nat.exists_eq_add_of_le' (show m ≤ n + 1 + used by omega)
  have hlist := hcount n'
  rw [← hn', hidx] at hlist
  obtain ⟨ahead, hahead, hword'⟩ := readMarks_list lang place scan
    hlast w.isWord w.named saved₁ hlist
  refine ⟨_, hwhole.list hahead, ?_⟩
  simp only [← Nat.add_assoc]
  rw [readMarks_lessThan lang place scan ((List.prefix_append [_] _).trans hword), hlines, hword',
    ← hidx, hrun, readMarks_greaterThan lang place scan hgt]
  simp only [List.cons_append, List.append_assoc, List.nil_append]

/-- With enough fuel the count of the list whose body begins at the index comes to the number of
items that are then written up to the list's bracket, and so it does for every list inside. -/
def CountedRight (cmds : EncodeCommands σ) (p : Program σ) : Prop :=
  ∃ need cnt, ∀ n, need ≤ n → ∃ p', getNumListElements cmds n p = some (cnt, p') ∧
    itemCount (inside 0 (readMarks cmds scan n p')) = cnt ∧
    ListsRight (inside 0 (readMarks cmds scan n p'))

variable {lang place scan} {vars : Variables σ κ}

/-- The marks of a body that a pass goes over, from variables that a count may have set. -/
theorem Pass.writes {D S : Set κ} {b : ListBody σ} {u u' v : σ} {k i : ℕ}
    (hpass : Pass vars D (.body b) u S k u') (hv : AgreeOff vars.value D u v)
    (hb : b.Stands vars lang tokens i)
    (hgt : [mark .greaterThan rfl] <+: tokens.drop (i + b.tokens.length)) (place saved : ℕ)
    (scan : FloatScan) (control : Control) :
    ∃ need, ∀ n, need ≤ n → ∃ ms, Whole ms k ∧
      inside 0 (readMarks (messageCommands lang place) scan n ⟨tokens, i, saved, ⟨control, v⟩⟩) =
        ms := by
  obtain ⟨v', saved', c', -, -, -, used, need, hwrites⟩ :=
    hpass.walks (write_walker lang place scan tokens) (write_lists lang place scan vars tokens)
      v i saved control hv trivial hb
  refine ⟨need + 1 + used, fun n hn => ?_⟩
  obtain ⟨n', rfl⟩ := Nat.exists_eq_add_of_le' hn
  obtain ⟨ms, hwhole, hrun⟩ := hwrites (n' + need + 1) (by omega)
  refine ⟨ms, hwhole, ?_⟩
  rw [← Nat.add_assoc, ← Nat.add_assoc, hrun, Task.size,
    readMarks_greaterThan lang place scan hgt, hwhole.inside_append, inside, List.append_nil]

theorem lists_counted_right (vars : Variables σ κ) (lang : Language σ) (place : ℕ)
    (scan : FloatScan) (tokens : List Token) (body : ListBody σ) (i saved : ℕ) (control : Control)
    (user user' : σ) (S : Set κ) (k : ℕ) (hbody : body.Stands vars lang tokens i)
    (hgt : [mark .greaterThan rfl] <+: tokens.drop (i + body.tokens.length))
    (hpass : Pass vars S (.body body) user S k user') :
    CountedRight scan (messageCommands lang place) ⟨tokens, i, saved, ⟨control, user⟩⟩ := by
  obtain ⟨v, saved', control', -, hv, -, c, hcount⟩ :=
    hpass.counts (AgreeOff.refl S user) hbody hgt place saved control
  obtain ⟨need, hwrites⟩ := hpass.writes hv hbody hgt place saved' scan control'
  refine ⟨need + c, k, fun n hn => ⟨⟨tokens, i, saved', ⟨control', v⟩⟩, ?_⟩⟩
  obtain ⟨ms, hwhole, hms⟩ := hwrites n (by omega)
  obtain ⟨n', rfl⟩ := Nat.exists_eq_add_of_le' hn
  refine ⟨?_, ?_, ?_⟩
  · rw [← Nat.add_assoc]
    exact hcount (n' + need)
  · have hitems := hwhole.itemCount_append []
    rw [hms]
    rwa [List.append_nil, itemCount, Nat.add_zero] at hitems
  · have hlists := hwhole.lists_append [] trivial
    rw [hms]
    rwa [List.append_nil] at hlists

end

/-! ## A loop from a value or from its own variable -/

def oneLanguage : Language Bytes where
  evaluateToken _ _ user := user
  expression tokens idx user :=
    match tokens[idx]? with
    | some t => ⟨0, if t.type = .variable_ then user else t.text, 1, idx, user⟩
    | none => ⟨1, [], 0, idx, user⟩
  variableGet _ _ _ user := some user
  variablePut _ _ _ value _ := value
  label _ _ _ := none
  takeArguments _ _ _ user := (0, 0, user)
  command _ p := ⟨0, false, p⟩
  staleIdx := none

def oneVariable : Variables Bytes Unit where
  cell _ := ()
  value _ user := some user

def oneToken (t : Token) (ht : t.type.isScanned = false) : Expr Bytes where
  tokens := [t]
  neutral := .token ht .nil
  eval user := some (if t.type = .variable_ then user else t.text, user)

def loopHead (first : Token) (hfirst : first.type.isScanned = false) : ForHead Bytes where
  name := cstr "i"
  first := oneToken first hfirst
  limit := oneToken (word (cstr "2")) rfl
  step := none
  put value _ := value
  get user := some user

theorem ascii_ne_list : SecsType.ascii ≠ .list := nofun

theorem valueTokens_word (text : Bytes) : ValueTokens false [word text] :=
  .one rfl (fun h => nomatch h) .nil

theorem branchOf_ascii (scan : FloatScan) : branchOf scan (cstr "A") =
    .item .ascii (SecsType.minus .ascii) (SecsType.convert scan .ascii) := rfl

def textItem : DataItem where
  gap := []
  type := .ascii
  isData := ascii_ne_list
  word := word (cstr "A")
  isWord := isWord_word _
  named := branchOf_ascii
  values := [word (cstr "x")]
  areValues := valueTokens_word _

def loopInside : ListBody Bytes :=
  .line ⟨mark .endOfLine endOfLine_hasText, .inl rfl⟩ (.item textItem .done)

def loopBody (first : Token) (hfirst : first.type.isScanned = false) : ListBody Bytes :=
  .forLoop (loopHead first hfirst) loopInside .done

theorem oneToken_stands {tokens : List Token} {i : ℕ} {t : Token} (ht : t.type.isScanned = false)
    (h : [t] <+: tokens.drop i) : (oneToken t ht).Stands oneLanguage tokens i := by
  refine ⟨h, ?_⟩
  intro user value user' heval
  cases heval
  refine ⟨i, ?_⟩
  simp only [oneLanguage, getElem?_segment h]
  rfl

theorem loopBody_stands (first : Token) (hfirst : first.type.isScanned = false) :
    (loopBody first hfirst).Stands oneVariable oneLanguage (loopTokens first) 0 := by
  have hsets : (loopHead first hfirst).Sets oneVariable :=
    ⟨fun _ => rfl, ⟨fun _ _ => rfl, fun _ _ d hd => absurd rfl hd⟩⟩
  have hstep : ∀ t, (loopTokens first)[6]? = some t → t.type ≠ .step := by
    intro t ht
    cases ht
    nofun
  have hhead : (loopHead first hfirst).Stands oneLanguage (loopTokens first) 1 11 :=
    ⟨⟨_, rfl⟩, oneToken_stands hfirst ⟨_, rfl⟩, fun _ _ => rfl, oneToken_stands rfl ⟨_, rfl⟩, nofun,
      fun _ => hstep, ⟨_, rfl⟩, fun _ => rfl, fun _ _ => rfl⟩
  exact ⟨⟨_, rfl⟩, hsets, hhead, ⟨_, rfl⟩, ⟨⟨_, rfl⟩, ⟨_, rfl⟩, trivial⟩, trivial⟩

theorem intText_two : intText 2 = cstr "2" := by
  have hnat : (2 : ℤ).natAbs = 2 := rfl
  rw [intText, if_neg (by decide), hnat, decimal, if_pos (by decide)]
  rfl

section

variable (first : Token) (hfirst : first.type.isScanned = false) (D : Set Unit)

theorem loopInside_pass (v : Bytes) : Pass oneVariable D (.body loopInside) v ∅ 1 v :=
  .line (.item .done)

theorem rounds_from_two : Pass oneVariable D (.rounds (loopHead first hfirst) 2 1 loopInside)
    (cstr "2") ∅ 1 (cstr "2") :=
  .leave (loopInside_pass D _) rfl (by decide)

theorem rounds_from_one : Pass oneVariable D (.rounds (loopHead first hfirst) 2 1 loopInside)
    (cstr "1") ({()} ∪ (∅ ∪ ∅)) 2 (cstr "2") := by
  have hput : (loopHead first hfirst).put (intText (nextValue (cstr "1") 1)) (cstr "1") =
      cstr "2" := intText_two
  have hle : nextValue (cstr "1") 1 ≤ 2 := by decide
  have hlast : Pass oneVariable (D \ ∅) (.rounds (loopHead first hfirst) 2 1 loopInside)
      ((loopHead first hfirst).put (intText (nextValue (cstr "1") 1)) (cstr "1")) ∅ 1
        (cstr "2") := by
    rw [hput]
    exact rounds_from_two first hfirst _
  exact .again (loopInside_pass D _) rfl hle hlast

theorem loopBody_pass (u : Bytes) {value : Bytes} {S : Set Unit} {k : ℕ}
    (hvalue : (oneToken first hfirst).Settled oneVariable D u value) (hle : scanInt value ≤ 2)
    (hrounds : Pass oneVariable (D \ {()}) (.rounds (loopHead first hfirst) 2 1 loopInside) value S
      k (cstr "2")) :
    Pass oneVariable D (.body (loopBody first hfirst)) u ({()} ∪ (S ∪ ∅)) k (cstr "2") := by
  have hlimit (D : Set Unit) (u : Bytes) :
      (oneToken (word (cstr "2")) rfl).Settled oneVariable D u (cstr "2") :=
    fun v _ => ⟨v, rfl, AgreeOff.refl ∅ v⟩
  have hhead : (loopHead first hfirst).Settled oneVariable D u value 2 1 :=
    ⟨hvalue, ⟨_, hlimit _ _, rfl⟩, rfl⟩
  exact .enter hhead (not_lt.2 hle) hrounds .done

end

/-- Where a count may have set the variable, a loop from 1 is all the same. -/
theorem lists_counted_right_from_one :
    CountedRight hexScan (messageCommands oneLanguage 0)
      ⟨loopTokens (word (cstr "1")), 0, 0, ⟨zeroControl, cstr "7"⟩⟩ := by
  have hone (D : Set Unit) : (oneToken (word (cstr "1")) rfl).Settled oneVariable D (cstr "7")
      (cstr "1") := fun v _ => ⟨v, rfl, AgreeOff.refl ∅ v⟩
  exact lists_counted_right oneVariable oneLanguage 0 hexScan _
    (loopBody (word (cstr "1")) rfl) 0 0 zeroControl (cstr "7") (cstr "2") _ 2
    (loopBody_stands _ rfl) ⟨_, rfl⟩
    (loopBody_pass _ rfl _ _ (hone _) (by decide) (rounds_from_one _ rfl _))

/-- From `i = 1` the count finds two items and leaves `i = 2`, from where one is written. -/
theorem lists_not_always_counted_right :
    ¬ ∀ {σ κ : Type} (vars : Variables σ κ) (lang : Language σ) (place : ℕ) (scan : FloatScan)
      (tokens : List Token) (body : ListBody σ) (i saved : ℕ) (control : Control) (user : σ),
      body.Stands vars lang tokens i →
      [mark .greaterThan rfl] <+: tokens.drop (i + body.tokens.length) →
      (∃ n r, getNumListElements (messageCommands lang place) n
        ⟨tokens, i, saved, ⟨control, user⟩⟩ = some r) →
      CountedRight scan (messageCommands lang place) ⟨tokens, i, saved, ⟨control, user⟩⟩ := by
  intro hall
  have hstands := loopBody_stands (reference (cstr "i")) rfl
  have hgt : [mark .greaterThan rfl] <+: (loopTokens (reference (cstr "i"))).drop
      (0 + (loopBody (reference (cstr "i")) rfl).tokens.length) := ⟨_, rfl⟩
  have hvalue (u : Bytes) : (oneToken (reference (cstr "i")) rfl).Settled oneVariable ∅ u u := by
    intro v hv
    obtain rfl : u = v := Option.some.inj (hv () (Set.notMem_empty ()))
    exact ⟨u, rfl, AgreeOff.refl ∅ u⟩
  have hcounting := loopBody_pass _ rfl ∅ (cstr "1") (hvalue _) (by decide)
    (rounds_from_one _ rfl _)
  have hwriting := loopBody_pass _ rfl ∅ (cstr "2") (hvalue _) (by decide)
    (rounds_from_two _ rfl _)
  obtain ⟨v, saved, control, hv, -, -, c, hcount⟩ := hcounting.counts (AgreeOff.refl ∅ _) hstands
    hgt 0 0 zeroControl
  obtain ⟨need, cnt, hright⟩ := hall oneVariable oneLanguage 0 hexScan _ _ 0 0 zeroControl
    (cstr "1") hstands hgt ⟨_, _, hcount 0⟩
  rw [Set.empty_sdiff] at hv
  obtain rfl : cstr "2" = v := Option.some.inj (hv () (Set.notMem_empty ()))
  obtain ⟨need', hwrites⟩ := hwriting.writes (AgreeOff.refl ∅ _) hstands hgt 0 saved hexScan control
  obtain ⟨p', hcnt, hitems, -⟩ := hright (need + need' + c) (by omega)
  rw [hcount (need + need')] at hcnt
  cases hcnt
  obtain ⟨ms, hwhole, hms⟩ := hwrites (need + need' + c) (by omega)
  have hone := hwhole.itemCount_append []
  rw [List.append_nil, ← hms, hitems, itemCount] at hone
  exact absurd hone (by decide)

end ScOpen
