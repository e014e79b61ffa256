import ScOpen.ListBodies

/-!
# Going over lists with loops

The count of a list and the encoder go over the tokens of its body as a pass does. What they do at
a token is left open here: any walk that runs the loops as the interpreter does comes to the end of
the body, and its variables agree with those of the pass off the cells that a count has set.
-/

namespace ScOpen

open Agreement

section

variable {σ κ : Type} {lang : Language σ} {tokens : List Token}

/-! ## Loops -/

theorem Control.Keeps.trans {c c' c'' : Control} (h : c.Keeps c') (h' : c'.Keeps c'') :
    c.Keeps c'' where
  nest := h'.nest.trans h.nest
  forNest := h'.forNest.trans h.forNest
  whileNest := h'.whileNest.trans h.whileNest
  returnIdx n hn := (h'.returnIdx n (h.nest ▸ hn)).trans (h.returnIdx n hn)
  forIdx n hn := (h'.forIdx n (h.forNest ▸ hn)).trans (h.forIdx n hn)
  forTo n hn := (h'.forTo n (h.forNest ▸ hn)).trans (h.forTo n hn)
  forStep n hn := (h'.forStep n (h.forNest ▸ hn)).trans (h.forStep n hn)
  whileIdx n hn := (h'.whileIdx n (h.whileNest ▸ hn)).trans (h.whileIdx n hn)

def Control.overFor (c : Control) : Control := { c with forNest := c.forNest - 1 }

theorem Control.Keeps.overFor {c c' : Control} (h : c.Keeps c') : c.overFor.Keeps c'.overFor where
  nest := h.nest
  forNest := congrArg (· - 1) h.forNest
  whileNest := h.whileNest
  returnIdx := h.returnIdx
  forIdx n hn := h.forIdx n (hn.trans (Int.sub_le_self _ Int.one_nonneg))
  forTo n hn := h.forTo n (hn.trans (Int.sub_le_self _ Int.one_nonneg))
  forStep n hn := h.forStep n (hn.trans (Int.sub_le_self _ Int.one_nonneg))
  whileIdx := h.whileIdx

theorem Control.keeps_setFor (c : Control) (limit step : ℤ) (idx : ℕ) :
    c.Keeps (c.setFor (c.forNest + 1) limit step idx) := by
  refine ⟨rfl, rfl, rfl, fun _ _ => rfl, ?_, ?_, ?_, fun _ _ => rfl⟩
  all_goals exact fun n hn => Function.update_of_ne (by omega) _ _

theorem Control.keeps_inFor (c : Control) (limit step : ℤ) (idx : ℕ) :
    c.Keeps (c.inFor limit step idx).overFor := by
  have hkeeps := c.keeps_setFor limit step idx
  exact ⟨rfl, add_sub_cancel_right _ _, rfl, hkeeps.returnIdx, hkeeps.forIdx, hkeeps.forTo,
    hkeeps.forStep, hkeeps.whileIdx⟩

variable {vars : Variables σ κ}

/-- A loop whose bounds are settled is entered alike from all states that agree. -/
theorem ForHead.Settled.enters {h : ForHead σ} (hsets : h.Sets vars) {D : Set κ} {u v : σ}
    {first : Bytes} {limit step : ℤ} (hs : h.Settled vars D u first limit step)
    (hv : AgreeOff vars.value D u v) :
    ∃ w, h.enter v = some ⟨scanInt first, limit, step, w⟩ ∧
      AgreeOff vars.value (D \ {vars.cell h.name}) (h.put first u) w ∧
      AgreeOff vars.value {vars.cell h.name} v w := by
  obtain ⟨v₁, hfirst, hv₁⟩ := hs.settled v hv
  have hput : AgreeOff vars.value (D \ {vars.cell h.name}) (h.put first u) (h.put first v₁) :=
    hsets.writes.agree first (hv.trans hv₁.of_empty)
  have haway : AgreeOff vars.value {vars.cell h.name} v (h.put first v₁) :=
    hv₁.of_empty.trans (hsets.writes.away first v₁)
  obtain ⟨b, hlimit, rfl⟩ := hs.settledLimit
  obtain ⟨v₂, heval, hv₂⟩ := hlimit _ hput
  have hstep := hs.settledStep
  cases hhas : h.step with
  | none =>
      rw [hhas] at hstep
      refine ⟨v₂, ?_, hput.trans hv₂.of_empty, haway.trans hv₂.of_empty⟩
      simp only [ForHead.enter, hfirst, heval, hhas, Option.elim_none, Option.bind_eq_bind,
        Option.bind_some]
      exact congrArg (fun z => some (Entry.mk _ _ z _)) hstep
  | some e =>
      rw [hhas] at hstep
      obtain ⟨d, hsettled, rfl⟩ := hstep
      obtain ⟨v₃, heval', hv₃⟩ := hsettled v₂ (hput.trans hv₂.of_empty)
      refine ⟨v₃, ?_, (hput.trans hv₂.of_empty).trans hv₃.of_empty,
        (haway.trans hv₂.of_empty).trans hv₃.of_empty⟩
      simp only [ForHead.enter, hfirst, heval, heval', hhas, Option.elim_some,
        Option.bind_eq_bind, Option.bind_some]
      rfl

/-! ## Passes -/

def Task.size : Task σ → ℕ
  | .body b => b.tokens.length
  | .rounds _ _ _ b => b.tokens.length + 2

def Task.left (c : Control) : Task σ → Control
  | .body _ => c
  | .rounds _ _ _ _ => c.overFor

def Task.Stands (vars : Variables σ κ) (lang : Language σ) (tokens : List Token) (i : ℕ)
    (c : Control) : Task σ → Prop
  | .body b => b.Stands vars lang tokens i
  | .rounds h limit step b =>
      h.Sets vars ∧ (∃ j, h.Stands lang tokens j (i + b.tokens.length)) ∧
        b.Stands vars lang tokens i ∧ c.forIdx c.forNest = some i ∧
        c.forTo c.forNest = some limit ∧ c.forStep c.forNest = some step

def Task.Entered (vars : Variables σ κ) (D : Set κ) : Task σ → Prop
  | .body _ => True
  | .rounds h _ _ _ => vars.cell h.name ∉ D

/-- A way of going over the tokens of a message that runs the loops. `To p q k` says that it comes
from `p` to `q` over `k` items. -/
structure Walker (lang : Language σ) (tokens : List Token)
    (To : Running σ → Running σ → ℕ → Prop) : Prop where
  refl : ∀ p, To p p 0
  trans : ∀ {p q r j k}, To p q j → To q r k → To p r (j + k)
  line : ∀ {i} (l : LineToken) (saved env), [l.token] <+: tokens.drop i →
    To ⟨tokens, i, saved, env⟩ ⟨tokens, i + 1, i, env⟩ 0
  item : ∀ {i} (d : DataItem) (saved env), d.tokens <+: tokens.drop i →
    ∃ saved', To ⟨tokens, i, saved, env⟩ ⟨tokens, i + d.tokens.length, saved', env⟩ 1
  for_ : ∀ {i} (saved) {env q}, [mark .for_ for_hasText] <+: tokens.drop i →
    cmdFor lang ⟨tokens, i + 1, i, env⟩ = (0, q) → To ⟨tokens, i, saved, env⟩ q 0
  next : ∀ {i} (saved) {env q}, [mark .next next_hasText] <+: tokens.drop i →
    cmdNext lang ⟨tokens, i + 1, i, env⟩ = some (0, q) → To ⟨tokens, i, saved, env⟩ q 0

def Walker.Lists (vars : Variables σ κ) (lang : Language σ) (tokens : List Token)
    (To : Running σ → Running σ → ℕ → Prop) : Prop :=
  ∀ {D S : Set κ} {u u' v : σ} {j i saved : ℕ} {c : Control} {w : ListWord} {kids : ListBody σ},
    Pass vars (D ∪ S) (.body kids) u S j u' → AgreeOff vars.value D u v →
    w.tokens <+: tokens.drop i → kids.Stands vars lang tokens (i + w.tokens.length) →
    [mark .greaterThan greaterThan_hasText] <+:
      tokens.drop (i + w.tokens.length + kids.tokens.length) →
    ∃ v₁ saved₁ c₁, AgreeOff vars.value S v v₁ ∧ c.Keeps c₁ ∧ ∀ saved₂ env,
      To ⟨tokens, i + w.tokens.length, saved₁, ⟨c₁, v₁⟩⟩
        ⟨tokens, i + w.tokens.length + kids.tokens.length, saved₂, env⟩ j →
      To ⟨tokens, i, saved, ⟨c, v⟩⟩ ⟨tokens, i + w.tokens.length + kids.tokens.length + 1,
        i + w.tokens.length + kids.tokens.length, env⟩ 1

def Walks (vars : Variables σ κ) (tokens : List Token) (To : Running σ → Running σ → ℕ → Prop)
    (D S : Set κ) (task : Task σ) (k : ℕ) (u' v : σ) (i saved : ℕ) (c : Control) : Prop :=
  ∃ v' saved' c', AgreeOff vars.value (D \ S) u' v' ∧ AgreeOff vars.value S v v' ∧
    (task.left c).Keeps c' ∧
    To ⟨tokens, i, saved, ⟨c, v⟩⟩ ⟨tokens, i + task.size, saved', ⟨c', v'⟩⟩ k

/-- The `next` of a loop after a round over its body. -/
theorem Task.Stands.next {h : ForHead σ} {limit step : ℤ} {b : ListBody σ} {i : ℕ} {c : Control}
    (hstands : (Task.rounds h limit step b).Stands vars lang tokens i c) {c₁ : Control}
    (hc : c.Keeps c₁) {D : Set κ} {u v : σ} (hv : AgreeOff vars.value D u v)
    (hcell : vars.cell h.name ∉ D) {value : Bytes}
    (hvalue : vars.value (vars.cell h.name) u = some value) :
    cmdNext lang ⟨tokens, i + b.tokens.length + 1, i + b.tokens.length, ⟨c₁, v⟩⟩ = some (0,
      if nextValue value step ≤ limit then
        ⟨tokens, i, i + b.tokens.length + 1, ⟨c₁, h.put (intText (nextValue value step)) v⟩⟩
      else ⟨tokens, i + b.tokens.length + 2, i + b.tokens.length + 1, ⟨c₁.overFor, v⟩⟩) := by
  obtain ⟨hsets, ⟨m, hh⟩, -, hidx, hto, hstep⟩ := hstands
  have hget : h.get v = some value := by
    rw [hsets.get, ← hv _ hcell, hvalue]
  refine cmdNext_stands hh ?_ ?_ ?_ hget
  · rw [hc.forNest, hc.forTo _ le_rfl, hto]
  · rw [hc.forNest, hc.forStep _ le_rfl, hstep]
  · rw [hc.forNest, hc.forIdx _ le_rfl, hidx]

theorem Task.Stands.keeps {h : ForHead σ} {limit step : ℤ} {b : ListBody σ} {i : ℕ} {c : Control}
    (hstands : (Task.rounds h limit step b).Stands vars lang tokens i c) {c₁ : Control}
    (hc : c.Keeps c₁) : (Task.rounds h limit step b).Stands vars lang tokens i c₁ := by
  obtain ⟨hsets, hh, hb, hidx, hto, hstep⟩ := hstands
  refine ⟨hsets, hh, hb, ?_, ?_, ?_⟩
  · rw [hc.forNest, hc.forIdx _ le_rfl, hidx]
  · rw [hc.forNest, hc.forTo _ le_rfl, hto]
  · rw [hc.forNest, hc.forStep _ le_rfl, hstep]

theorem Pass.walks {To : Running σ → Running σ → ℕ → Prop} (hw : Walker lang tokens To)
    (hlists : Walker.Lists vars lang tokens To) {D S : Set κ} {task : Task σ} {u u' : σ} {k : ℕ}
    (hpass : Pass vars D task u S k u') :
    ∀ v i saved c, AgreeOff vars.value D u v → task.Entered vars D →
      task.Stands vars lang tokens i c → Walks vars tokens To D S task k u' v i saved c := by
  induction hpass with
  | done =>
      intro v i saved c hv _ _
      refine ⟨v, saved, c, hv.mono ?_, AgreeOff.refl _ v, Control.Keeps.refl c, hw.refl _⟩
      exact (Set.sdiff_empty (s := _)).ge
  | @line D S u u' k l next _ ih =>
      intro v i saved c hv _ ⟨hl, hnext⟩
      obtain ⟨v', saved', c', hagree, hsets, hkeeps, hto⟩ := ih v (i + 1) i c hv trivial hnext
      refine ⟨v', saved', c', hagree, hsets, hkeeps, ?_⟩
      have hwalk := hw.trans (hw.line l saved ⟨c, v⟩ hl) hto
      have hidx : i + (Task.body (.line l next)).size = i + 1 + next.tokens.length := by
        simp only [Task.size, ListBody.tokens, List.length_cons]
        omega
      rw [Nat.zero_add] at hwalk
      rw [hidx]
      exact hwalk
  | @item D S u u' k d next _ ih =>
      intro v i saved c hv _ ⟨hd, hnext⟩
      obtain ⟨saved₁, hitem⟩ := hw.item d saved ⟨c, v⟩ hd
      obtain ⟨v', saved', c', hagree, hsets, hkeeps, hto⟩ :=
        ih v (i + d.tokens.length) saved₁ c hv trivial hnext
      refine ⟨v', saved', c', hagree, hsets, hkeeps, ?_⟩
      have hidx : i + (Task.body (.item d next)).size =
          i + d.tokens.length + next.tokens.length := by
        simp only [Task.size, ListBody.tokens, List.length_append]
        omega
      rw [hidx, Nat.add_comm k]
      exact hw.trans hitem hto
  | @list D S S₁ u u₁ u' j k w kids next hpass _ ihkids ihnext =>
      intro v i saved c hv _ ⟨hword, hkids, hgt, hnext⟩
      obtain ⟨v₁, saved₁, c₁, hv₁, hc₁, hlist⟩ := hlists hpass hv hword hkids hgt
      obtain ⟨v₂, saved₂, c₂, hagree₂, hv₂, hc₂, hto₂⟩ :=
        ihkids v₁ (i + w.tokens.length) saved₁ c₁ (hv.union hv₁) trivial hkids
      rw [Set.union_sdiff_right] at hagree₂
      obtain ⟨v₃, saved₃, c₃, hagree₃, hv₃, hc₃, hto₃⟩ := ihnext v₂
        (i + w.tokens.length + kids.tokens.length + 1) (i + w.tokens.length + kids.tokens.length) c₂
        hagree₂ trivial hnext
      rw [Set.sdiff_sdiff] at hagree₃
      refine ⟨v₃, saved₃, c₃, hagree₃, (hv₁.trans hv₂).union hv₃, (hc₁.trans hc₂).trans hc₃, ?_⟩
      have hidx : i + (Task.body (.list w kids next)).size =
          i + w.tokens.length + kids.tokens.length + 1 + next.tokens.length := by
        simp only [Task.size, ListBody.tokens, List.length_append, List.length_cons]
        omega
      rw [hidx, Nat.add_comm k]
      exact hw.trans (hlist saved₂ ⟨c₂, v₂⟩ hto₂) hto₃
  | @skip D S u u' k h body next first limit step hhead hskip hfree _ ih =>
      intro v i saved c hv _ ⟨hfor, hsets, hh, hbody, _, hnext⟩
      obtain ⟨v₁, henter, hagree₁, hv₁⟩ := hhead.enters hsets hv
      have htake : (tokens.drop (i + (h.tokens.length + 1))).take body.tokens.length =
          body.tokens := (List.prefix_iff_eq_take.1 hbody).symm
      obtain ⟨saved₁, hcmd⟩ := cmdFor_skip hh henter hskip (htake.symm ▸ hfree) c
      obtain ⟨v₂, saved₂, c₂, hagree₂, hv₂, hc₂, hto₂⟩ := ih v₁ _ saved₁
        (c.setFor (c.forNest + 1) limit step (i + (h.tokens.length + 1))) hagree₁ trivial hnext
      rw [Set.sdiff_sdiff] at hagree₂
      refine ⟨v₂, saved₂, c₂, hagree₂, hv₁.union hv₂, (c.keeps_setFor _ _ _).trans hc₂, ?_⟩
      have hidx : i + (Task.body (.forLoop h body next)).size =
          i + (h.tokens.length + 1) + body.tokens.length + 2 + next.tokens.length := by
        simp only [Task.size, ListBody.tokens, List.length_append, List.length_cons]
        omega
      have hwalk := hw.trans (hw.for_ saved hfor hcmd) hto₂
      rw [Nat.zero_add] at hwalk
      rw [hidx]
      exact hwalk
  | @enter D S S₁ u u₁ u' j k h body next first limit step hhead hle _ _ ihrounds ihnext =>
      intro v i saved c hv _ ⟨hfor, hsets, hh, _, hbody, hnext⟩
      obtain ⟨v₁, henter, hagree₁, hv₁⟩ := hhead.enters hsets hv
      obtain ⟨saved₁, hcmd⟩ := cmdFor_enter hh henter hle c
      have hstands : (Task.rounds h limit step body).Stands vars lang tokens
          (i + (h.tokens.length + 1)) (c.inFor limit step (i + (h.tokens.length + 1))) :=
        ⟨hsets, ⟨i + 1, hh⟩, hbody, Function.update_self _ _ _, Function.update_self _ _ _,
          Function.update_self _ _ _⟩
      obtain ⟨v₂, saved₂, c₂, hagree₂, hv₂, hc₂, hto₂⟩ :=
        ihrounds v₁ _ saved₁ _ hagree₁ (fun hD => hD.2 rfl) hstands
      obtain ⟨v₃, saved₃, c₃, hagree₃, hv₃, hc₃, hto₃⟩ := ihnext v₂
        (i + (h.tokens.length + 1) + body.tokens.length + 2) saved₂ c₂ hagree₂ trivial hnext
      rw [Set.sdiff_sdiff, Set.sdiff_sdiff] at hagree₃
      refine ⟨v₃, saved₃, c₃, hagree₃, hv₁.union (hv₂.union hv₃),
        ((c.keeps_inFor _ _ _).trans hc₂).trans hc₃, ?_⟩
      have hidx : i + (Task.body (.forLoop h body next)).size =
          i + (h.tokens.length + 1) + body.tokens.length + 2 + next.tokens.length := by
        simp only [Task.size, ListBody.tokens, List.length_append, List.length_cons]
        omega
      have hwalk := hw.trans (hw.for_ saved hfor hcmd) (hw.trans hto₂ hto₃)
      rw [Nat.zero_add] at hwalk
      rw [hidx]
      exact hwalk
  | @again D S S₁ u u₁ u' j k h body limit step value _ hvalue hle _ ihbody ihrounds =>
      intro v i saved c hv hcell hstands
      obtain ⟨hsets, ⟨m, hh⟩, hbody, -⟩ := id hstands
      obtain ⟨v₁, saved₁, c₁, hagree₁, hv₁, hc₁, hto₁⟩ := ihbody v i saved c hv trivial hbody
      have hcell₁ : vars.cell h.name ∉ D \ S := fun hD => hcell hD.1
      have hcmd := hstands.next hc₁ hagree₁ hcell₁ hvalue
      rw [if_pos hle] at hcmd
      have hput := (hsets.writes.agree (intText (nextValue value step)) hagree₁).mono
        Set.sdiff_subset
      obtain ⟨v₂, saved₂, c₂, hagree₂, hv₂, hc₂, hto₂⟩ := ihrounds _ i
        (i + body.tokens.length + 1) c₁ hput hcell₁ (hstands.keeps hc₁)
      have haway := hsets.writes.away (intText (nextValue value step)) v₁
      refine ⟨v₂, saved₂, c₂, ?_, ?_, hc₁.overFor.trans hc₂, ?_⟩
      · rw [← Set.sdiff_sdiff, Set.sdiff_singleton_eq_self hcell, ← Set.sdiff_sdiff]
        exact hagree₂
      · refine ((hv₁.union haway).union hv₂).mono ?_
        rw [Set.union_comm S, Set.union_assoc]
      · have hnext : [mark .next rfl] <+: tokens.drop (i + body.tokens.length) :=
          (List.prefix_append [_] _).trans hh.next
        have hwalk := hw.trans hto₁ (hw.trans (hw.next saved₁ hnext hcmd) hto₂)
        rw [Nat.zero_add] at hwalk
        exact hwalk
  | @leave D S u u' k h body limit step value _ hvalue hlt ih =>
      intro v i saved c hv hcell hstands
      obtain ⟨-, ⟨m, hh⟩, hbody, -⟩ := id hstands
      obtain ⟨v₁, saved₁, c₁, hagree₁, hv₁, hc₁, hto₁⟩ := ih v i saved c hv trivial hbody
      have hcmd := hstands.next hc₁ hagree₁ (fun hD => hcell hD.1) hvalue
      rw [if_neg hlt] at hcmd
      have hnext : [mark .next rfl] <+: tokens.drop (i + body.tokens.length) :=
        (List.prefix_append [_] _).trans hh.next
      exact ⟨v₁, _, c₁.overFor, hagree₁, hv₁, hc₁.overFor,
        hw.trans hto₁ (hw.next saved₁ hnext hcmd)⟩

end

end ScOpen
