import Mathlib.Data.List.Basic
import ScOpen.Settling

/-!
# Two parties on a line

What is written to a line arrives in order. Each party does what its state tells it to; one that
rests may choose to go on, and bytes that arrive do not take choices away. Then the order in which
the parties act does not matter, and it is enough to know what they put on the line and take off it
in turn.
-/

namespace Dialogues

open Settling

variable {σ β : Type*}

inductive Action (σ β : Type*)
  | write (b : β) (next : σ)
  | read (next : β → σ)
  | move (next : σ)
  | rest

@[ext]
structure Line (σ β : Type*) where
  left : σ
  right : σ
  toRight : List β
  toLeft : List β

def Line.flip (s : Line σ β) : Line σ β := ⟨s.right, s.left, s.toLeft, s.toRight⟩

/-- What a party does, with the bytes it takes off the line and those it puts on. -/
inductive Does (act : σ → Action σ β) : σ → List β → List β → σ → Prop
  | write {s s' : σ} {b : β} (h : act s = .write b s') : Does act s [] [b] s'
  | read {s : σ} {next : β → σ} (h : act s = .read next) (b : β) : Does act s [b] [] (next b)
  | move {s s' : σ} (h : act s = .move s') : Does act s [] [] s'

def Acts (act : σ → Action σ β) (s t : Line σ β) : Prop :=
  ∃ taken put, Does act s.left taken put t.left ∧ s.toLeft = taken ++ t.toLeft ∧
    t.toRight = s.toRight ++ put ∧ t.right = s.right

def Chooses (act : σ → Action σ β) (choose : List β → σ → σ → Prop) (s t : Line σ β) : Prop :=
  act s.left = .rest ∧ choose s.toLeft s.left t.left ∧ t.toLeft = s.toLeft ∧
    t.toRight = s.toRight ∧ t.right = s.right

def OfBoth (step : Line σ β → Line σ β → Prop) (s t : Line σ β) : Prop :=
  step s t ∨ step s.flip t.flip

def Grows (choose : List β → σ → σ → Prop) : Prop :=
  ∀ q put s s', choose q s s' → choose (q ++ put) s s'

section

variable {act : σ → Action σ β} {choose : List β → σ → σ → Prop}

theorem OfBoth.flip {step : Line σ β → Line σ β → Prop} {s t : Line σ β} (h : OfBoth step s t) :
    OfBoth step s.flip t.flip := h.symm

/-! ## The order of the steps -/

theorem Does.unique {s t u : σ} {taken taken' put put' q q' : List β}
    (h : Does act s taken put t) (h' : Does act s taken' put' u) (hq : taken ++ q = taken' ++ q') :
    t = u ∧ put = put' ∧ q = q' := by
  cases h with
  | write h =>
      cases h' with
      | write h' =>
          cases h.symm.trans h'
          exact ⟨rfl, rfl, hq⟩
      | read h' => cases h.symm.trans h'
      | move h' => cases h.symm.trans h'
  | read h =>
      cases h' with
      | write h' => cases h.symm.trans h'
      | read h' =>
          cases h.symm.trans h'
          cases hq
          exact ⟨rfl, rfl, rfl⟩
      | move h' => cases h.symm.trans h'
  | move h =>
      cases h' with
      | write h' => cases h.symm.trans h'
      | read h' => cases h.symm.trans h'
      | move h' =>
          cases h.symm.trans h'
          exact ⟨rfl, rfl, hq⟩

theorem Does.not_rest {s t : σ} {taken put : List β} (h : Does act s taken put t) :
    act s ≠ .rest := by
  intro hrest
  cases h with
  | write h => cases h.symm.trans hrest
  | read h => cases h.symm.trans hrest
  | move h => cases h.symm.trans hrest

theorem Acts.unique {s t u : Line σ β} (h : Acts act s t) (h' : Acts act s u) : t = u := by
  obtain ⟨taken, put, hdoes, hleft, hright, hother⟩ := h
  obtain ⟨taken', put', hdoes', hleft', hright', hother'⟩ := h'
  obtain ⟨hstate, hput, hrest⟩ := hdoes.unique hdoes' (hleft.symm.trans hleft')
  apply Line.ext
  · exact hstate
  · exact hother.trans hother'.symm
  · rw [hright, hright', hput]
  · exact hrest

/-- The parties do not get in each other's way. -/
theorem Acts.diamond {s t u : Line σ β} (h : Acts act s t) (h' : Acts act s.flip u.flip) :
    ∃ d, Acts act t.flip d.flip ∧ Acts act u d := by
  obtain ⟨taken, put, hdoes, hleft, hright, hother⟩ := h
  obtain ⟨taken', put', hdoes', hright', hleft', hother'⟩ := h'
  simp only [Line.flip] at hdoes' hright' hleft' hother'
  refine ⟨⟨t.left, u.right, u.toRight ++ put, t.toLeft ++ put'⟩, ⟨taken', put', ?_⟩,
    ⟨taken, put, ?_⟩⟩
  · rw [← hother] at hdoes'
    refine ⟨hdoes', ?_, rfl, rfl⟩
    simp only [Line.flip]
    rw [hright, hright', List.append_assoc]
  · rw [← hother'] at hdoes
    refine ⟨hdoes, ?_, rfl, rfl⟩
    rw [hleft', hleft, List.append_assoc]

theorem Acts.postpone (hgrows : Grows choose) {s t u : Line σ β} (h : Acts act s.flip t.flip)
    (h' : Chooses act choose s u) : ∃ d, Chooses act choose t d ∧ Acts act u.flip d.flip := by
  obtain ⟨taken, put, hdoes, hright, hleft, hother⟩ := h
  obtain ⟨hrest, hchoose, hleft', hright', hother'⟩ := h'
  simp only [Line.flip] at hdoes hright hleft hother
  refine ⟨⟨u.left, t.right, t.toRight, t.toLeft⟩, ⟨?_, ?_, rfl, rfl, rfl⟩,
    ⟨taken, put, ?_, ?_, ?_, rfl⟩⟩
  · rwa [hother]
  · rw [hother, hleft]
    exact hgrows _ put _ _ hchoose
  · simp only [Line.flip]
    rwa [hother']
  · simp only [Line.flip]
    rw [hright', hright]
  · simp only [Line.flip]
    rw [hleft', hleft]

/-- A party that acts does not rest. -/
theorem Acts.not_chooses {s t u : Line σ β} (h : Acts act s t) (h' : Chooses act choose s u) :
    False := by
  obtain ⟨_, _, hdoes, _⟩ := h
  exact hdoes.not_rest h'.1

theorem commutes (hgrows : Grows choose) :
    Commutes (OfBoth (Acts act)) (OfBoth (Chooses act choose)) := by
  constructor
  · intro s t u ht hu
    rcases ht with ht | ht <;> rcases hu with hu | hu
    · exact .inl (ht.unique hu)
    · obtain ⟨d, hd, hd'⟩ := ht.diamond hu
      exact .inr ⟨d, .inr hd, .inl hd'⟩
    · obtain ⟨d, hd, hd'⟩ := hu.diamond ht
      exact .inr ⟨d, .inl hd', .inr hd⟩
    · exact .inl (congrArg Line.flip (ht.unique hu))
  · intro s t u ht hu
    rcases ht with ht | ht <;> rcases hu with hu | hu
    · exact (ht.not_chooses hu).elim
    · have ht' : Acts act s.flip.flip t.flip.flip := ht
      obtain ⟨d, hd, hd'⟩ := ht'.postpone hgrows hu
      exact ⟨d.flip, .inr hd, .inl hd'⟩
    · obtain ⟨d, hd, hd'⟩ := ht.postpone hgrows hu
      exact ⟨d, .inl hd, .inr hd'⟩
    · exact (ht.not_chooses hu).elim

/-! ## What goes over the line -/

inductive Event (β : Type*)
  | puts (b : β)
  | takes (b : β)

def Event.other : Event β → Event β
  | puts b => takes b
  | takes b => puts b

inductive Follows (act : σ → Action σ β) : σ → List (Event β) → σ → Prop
  | refl (s : σ) : Follows act s [] s
  | puts {s s₁ s' : σ} {b : β} {events : List (Event β)} (h : Does act s [] [b] s₁)
      (hrest : Follows act s₁ events s') : Follows act s (.puts b :: events) s'
  | takes {s s₁ s' : σ} {b : β} {events : List (Event β)} (h : Does act s [b] [] s₁)
      (hrest : Follows act s₁ events s') : Follows act s (.takes b :: events) s'

theorem Steps.flip {step : Line σ β → Line σ β → Prop} {n : ℕ} {s t : Line σ β}
    (h : Steps (OfBoth step) n s t) : Steps (OfBoth step) n s.flip t.flip := by
  induction h with
  | refl s => exact .refl s.flip
  | head hstep _ ih => exact .head hstep.flip ih

theorem Leads.flip {step : Line σ β → Line σ β → Prop} {s t : Line σ β}
    (h : Leads (OfBoth step) s t) : Leads (OfBoth step) s.flip t.flip := by
  obtain ⟨n, hn⟩ := h
  exact ⟨n, Steps.flip hn⟩

theorem Does.left {l l' : σ} {taken put : List β} (h : Does act l taken put l') (r : σ)
    (p q : List β) :
    Leads (OfBoth (Acts act)) ⟨l, r, p, taken ++ q⟩ ⟨l', r, p ++ put, q⟩ :=
  (Steps.one (.inl ⟨taken, put, h, rfl, rfl, rfl⟩)).leads

theorem Does.right {r r' : σ} {taken put : List β} (h : Does act r taken put r') (l : σ)
    (p q : List β) :
    Leads (OfBoth (Acts act)) ⟨l, r, taken ++ p, q⟩ ⟨l, r', p, q ++ put⟩ :=
  Leads.flip (h.left l q p)

/-- Two parties of which one takes what the other puts get through to the end. -/
theorem Follows.converse {l l' r r' : σ} {events : List (Event β)} (hl : Follows act l events l')
    (hr : Follows act r (events.map .other) r') :
    Leads (OfBoth (Acts act)) ⟨l, r, [], []⟩ ⟨l', r', [], []⟩ := by
  induction hl generalizing r with
  | refl l =>
      cases hr
      exact ⟨0, .refl _⟩
  | @puts l l₁ l' b events h _ ih =>
      cases hr with
      | takes h' hrest' =>
          have hput := h.left r [] []
          have htake := h'.right l₁ [] []
          exact hput.trans (htake.trans (ih hrest'))
  | @takes l l₁ l' b events h _ ih =>
      cases hr with
      | @puts _ r₁ _ _ _ h' hrest' =>
          have hput := h'.right l [] []
          have htake := h.left r₁ [] []
          exact hput.trans (htake.trans (ih hrest'))

def Waits (act : σ → Action σ β) (s : σ) (q : List β) : Prop :=
  act s = .rest ∨ q = [] ∧ ∃ next, act s = .read next

theorem Waits.not_acts {l r : σ} {p q : List β} (h : Waits act l q) (t : Line σ β) :
    ¬ Acts act ⟨l, r, p, q⟩ t := by
  rintro ⟨taken, put, hdoes, hq, -⟩
  rcases h with hrest | ⟨rfl, next, hread⟩
  · exact hdoes.not_rest hrest
  · obtain ⟨rfl, -⟩ := List.append_eq_nil_iff.1 hq.symm
    generalize t.left = l' at hdoes
    cases hdoes with
    | write h => cases h.symm.trans hread
    | move h => cases h.symm.trans hread

theorem final_of_waits {l r : σ} {p q : List β} (hl : Waits act l q) (hr : Waits act r p) :
    Final (OfBoth (Acts act)) ⟨l, r, p, q⟩ := by
  intro t ht
  rcases ht with ht | ht
  · exact hl.not_acts t ht
  · exact hr.not_acts t.flip ht

/-! ## Conversations -/

/-- What two parties of a conversation have before them: what the one that is ahead has put is still
on the line. -/
inductive Balanced : List (Event β) → List (Event β) → List β → List β → Prop
  | ahead (events : List (Event β)) (q : List β) :
      Balanced events (q.map .takes ++ events.map .other) q []
  | behind (events : List (Event β)) (q : List β) :
      Balanced (q.map .takes ++ events) (events.map .other) [] q

theorem Event.map_other_other (events : List (Event β)) :
    (events.map Event.other).map Event.other = events := by
  rw [List.map_map]
  refine (List.map_congr_left fun e _ => ?_).trans (List.map_id events)
  cases e <;> rfl

theorem Balanced.flip {el er : List (Event β)} {p q : List β} (h : Balanced el er p q) :
    Balanced er el q p := by
  cases h with
  | ahead =>
      have h := Balanced.behind (el.map .other) p
      rwa [Event.map_other_other] at h
  | behind events q =>
      have h := Balanced.ahead (events.map .other) q
      rwa [Event.map_other_other] at h

/-- When one party is done, the other one only takes what is on the line. -/
theorem Balanced.nil_left {er : List (Event β)} {p q : List β} (h : Balanced [] er p q) :
    er = p.map .takes := by
  generalize hevents : ([] : List (Event β)) = events at h
  cases h with
  | ahead =>
      subst hevents
      exact List.append_nil _
  | behind events q =>
      obtain ⟨-, rfl⟩ := List.append_eq_nil_iff.1 hevents.symm
      rfl

theorem Balanced.empty_line {el : List (Event β)} {p q : List β} (h : Balanced el [] p q) :
    p = [] := by
  generalize hevents : ([] : List (Event β)) = events at h
  cases h with
  | ahead =>
      obtain ⟨hp, -⟩ := List.append_eq_nil_iff.1 hevents.symm
      exact List.map_eq_nil_iff.1 hp
  | behind => rfl

theorem Balanced.puts {b : β} {el er : List (Event β)} {p q : List β}
    (h : Balanced (.puts b :: el) er p q) : Balanced el er (p ++ [b]) q := by
  generalize hevents : Event.puts b :: el = events at h
  cases h with
  | ahead =>
      subst hevents
      have h := Balanced.ahead el (p ++ [b])
      rwa [List.map_append, List.append_assoc] at h
  | behind events q =>
      cases q with
      | nil =>
          obtain rfl : Event.puts b :: el = events := hevents
          exact .ahead el [b]
      | cons c q => cases hevents

theorem Balanced.takes {b c : β} {el er : List (Event β)} {p q : List β}
    (h : Balanced (.takes b :: el) er p (c :: q)) : c = b ∧ Balanced el er p q := by
  generalize hevents : Event.takes b :: el = events at h
  cases h with
  | behind events q' =>
      cases hevents
      exact ⟨rfl, .behind events q⟩

/-- A party that has bytes on the line before it takes them. -/
theorem Balanced.left_takes {c : β} {el er : List (Event β)} {p q : List β}
    (h : Balanced el er p (c :: q)) : ∃ el', el = .takes c :: el' := by
  cases h with
  | behind events => exact ⟨_, rfl⟩

/-- A party that follows a conversation does what comes next in it. -/
theorem Follows.does {s s' l : σ} {e : Event β} {events : List (Event β)} {taken put : List β}
    (h : Follows act s (e :: events) l) (hdoes : Does act s taken put s') :
    (∃ b, e = .puts b ∧ taken = [] ∧ put = [b] ∧ Follows act s' events l) ∨
      ∃ b c, e = .takes b ∧ taken = [c] ∧ put = [] ∧ (c = b → Follows act s' events l) := by
  cases h with
  | @puts _ s₁ _ b _ h hrest =>
      cases taken with
      | nil =>
          have hnothing : ([] : List β) ++ [] = [] ++ [] := rfl
          obtain ⟨rfl, rfl, -⟩ := h.unique hdoes hnothing
          exact .inl ⟨b, rfl, rfl, rfl, hrest⟩
      | cons c taken =>
          cases h with
          | write h =>
              cases hdoes with
              | read h' => cases h.symm.trans h'
  | @takes _ s₁ _ b _ h hrest =>
      cases h with
      | read h =>
          cases hdoes with
          | write h' => cases h.symm.trans h'
          | read h' c =>
              cases h.symm.trans h'
              refine .inr ⟨b, c, rfl, rfl, rfl, ?_⟩
              rintro rfl
              exact hrest
          | move h' => cases h.symm.trans h'

/-- A party goes on with a conversation. -/
theorem Balanced.acts {s t : Line σ β} {e : Event β} {el er : List (Event β)} {l : σ}
    (hbalanced : Balanced (e :: el) er s.toRight s.toLeft)
    (hfollows : Follows act s.left (e :: el) l) (hacts : Acts act s t) :
    Follows act t.left el l ∧ Balanced el er t.toRight t.toLeft := by
  obtain ⟨taken, put, hdoes, hleft, hright, -⟩ := hacts
  obtain ⟨b, rfl, rfl, rfl, hrest⟩ | ⟨b, c, rfl, rfl, rfl, hrest⟩ := hfollows.does hdoes
  · rw [hright, ← (show s.toLeft = t.toLeft from hleft)]
    exact ⟨hrest, hbalanced.puts⟩
  · rw [hleft] at hbalanced
    obtain ⟨hsame, htakes⟩ := hbalanced.takes
    rw [hright, List.append_nil]
    exact ⟨hrest hsame, htakes⟩

theorem Follows.not_rest {s l : σ} {e : Event β} {events : List (Event β)}
    (h : Follows act s (e :: events) l) : act s ≠ .rest := by
  cases h with
  | puts h => exact h.not_rest
  | takes h => exact h.not_rest

end

end Dialogues
