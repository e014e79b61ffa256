import ScOpen.ReadMachine
import ScOpen.Runs

/-!
# Conditional text

The regions that enclose a token are the `#ifdef`s in front of it whose `#endif` has not been read,
each with its condition, which an `#else` negates. `skip_token()` has one flag for all of them: in
a part that is left out it passes over another `#ifdef`, but not over the `#else` and the `#endif`
of it.
-/

namespace ScOpen

inductive PpEvent where
  | ifdef (holds : Bool)
  | else_
  | endif
  | token (type : UInt8)
  | other
  deriving DecidableEq

def PpEvent.regions : PpEvent → List Bool → List Bool
  | .ifdef holds, regions => holds :: regions
  | .else_, region :: regions => (!region) :: regions
  | .endif, _ :: regions => regions
  | _, regions => regions

def PpEvent.flag : PpEvent → Bool → Bool
  | .ifdef holds, skipFlag => skipFlag || !holds
  | .else_, skipFlag => !skipFlag
  | .endif, _ => false
  | _, skipFlag => skipFlag

namespace Reading

instance (st : Reading) (type : UInt8) (text : Bytes) : Decidable (st.Replaced type text) :=
  inferInstanceAs (Decidable (_ ∨ _ ∨ _ ∨ _ ∧ _))

def tokenEvent (type : UInt8) (text : Bytes) (st : Reading) : PpEvent :=
  if type = TT_NULL_TOKEN ∨ st.top.esc ∧ type = TT_END_OF_LINE ∨ type = TT_ESC ∨
      type = TT_COMMENT then .other
  else if type = TT_POUND_ELSE then .else_
  else if type = TT_POUND_ENDIF then .endif
  else if type = TT_POUND_IFDEF then .ifdef (st.ifdefHolds text)
  else if st.Replaced type text then .other
  else .token type

section

variable (lib : PpLibrary)

def event (st : Reading) : PpEvent :=
  match st.at_, getTokenText lib st.top.ppFlag st.top.source with
  | .loop, .token type text _ => st.tokenEvent type text
  | _, _ => .other

def regionStep (s : Reading × List Bool) (_ : Unit) : Option (Reading × List Bool) :=
  match s.1.step lib with
  | .inl st => some (st, (s.1.event lib).regions s.2)
  | .inr _ => none

def InRegion (s : Reading × List Bool) : Prop :=
  s.1.event lib = .else_ ∨ s.1.event lib = .endif → s.2 ≠ []

def KeptIfdef (s : Reading × List Bool) : Prop :=
  ∀ holds, s.1.event lib = .ifdef holds → ∀ region ∈ s.2, region = true

end

def Stored (type : UInt8) (st st' : Reading) : Prop :=
  ∃ bytes, st'.pp.program = st.pp.program ++ type :: bytes

section

variable {lib : PpLibrary} {type : UInt8} {text : Bytes} {st st' : Reading}

/-- Only a token of the main loop has another event. -/
theorem event_ne_other (h : st.event lib ≠ .other) :
    ∃ type text rest, st.at_ = .loop ∧
      getTokenText lib st.top.ppFlag st.top.source = .token type text rest ∧
      st.event lib = st.tokenEvent type text ∧
      st.step lib = turn lib type text (st.moveTo rest) := by
  cases hat : st.at_ with
  | loop =>
      cases htoken : getTokenText lib st.top.ppFlag st.top.source with
      | ppError =>
          rw [event, hat, htoken] at h
          exact absurd rfl h
      | overrun =>
          rw [event, hat, htoken] at h
          exact absurd rfl h
      | token type text rest =>
          refine ⟨type, text, rest, rfl, rfl, ?_, ?_⟩
          · rw [event, hat, htoken]
          · rw [step, hat]
            dsimp only
            rw [lex, htoken]
  | _ =>
      rw [event, hat] at h
      exact absurd rfl h

theorem Kept.flag (h : Kept lib type text st st') :
    st'.pp.skipFlag = if type = TT_POUND_IFDEF then !st.ifdefHolds text else st.pp.skipFlag := by
  cases h with
  | stored h =>
      rw [if_neg fun htype => h (.inr (.inr (.inl htype)))]
      rfl
  | args htype _ =>
      rw [if_neg (by rw [htype]; decide)]
      rfl
  | value htype _ =>
      rw [if_neg (by rw [htype]; decide)]
      rfl
  | file htype _ =>
      rw [if_neg (by rw [htype]; decide)]
      rfl
  | search htype =>
      rw [if_neg (by rw [htype]; decide)]
      rfl
  | define htype _ =>
      rw [if_neg (by rw [htype]; decide)]
      rfl
  | ifdef htype =>
      rw [if_pos htype]
      rfl

theorem turn_flag (h : turn lib type text st = .inl st') :
    st'.pp.skipFlag = (st.tokenEvent type text).flag st.pp.skipFlag := by
  rw [turn] at h
  rw [tokenEvent]
  by_cases hnull : type = TT_NULL_TOKEN
  · rw [if_pos hnull] at h
    rw [if_pos (.inl hnull)]
    cases houter : st.outer with
    | nil =>
        rw [houter] at h
        cases h
    | cons caller outer =>
        rw [houter] at h
        cases h
        rfl
  rw [if_neg hnull] at h
  by_cases hescaped : st.top.esc ∧ type = TT_END_OF_LINE
  · rw [if_pos hescaped] at h
    rw [if_pos (.inr (.inl hescaped))]
    cases h
    rfl
  rw [if_neg hescaped] at h
  by_cases hesc : type = TT_ESC
  · rw [if_pos hesc] at h
    rw [if_pos (.inr (.inr (.inl hesc)))]
    cases h
    rfl
  rw [if_neg hesc] at h
  dsimp only at h
  by_cases hcomment : type = TT_COMMENT
  · rw [if_neg (by rw [hcomment]; decide), if_neg (by rw [hcomment]; decide),
      if_pos (.inl hcomment)] at h
    rw [if_pos (.inr (.inr (.inr hcomment)))]
    cases h
    rfl
  have hother : ¬ (type = TT_NULL_TOKEN ∨ st.top.esc ∧ type = TT_END_OF_LINE ∨ type = TT_ESC ∨
      type = TT_COMMENT) := by
    rintro (h | h | h | h)
    · exact hnull h
    · exact hescaped h
    · exact hesc h
    · exact hcomment h
  rw [if_neg hother]
  by_cases helse : type = TT_POUND_ELSE
  · rw [if_pos helse] at h
    rw [if_pos helse]
    cases h
    rfl
  rw [if_neg helse] at h
  rw [if_neg helse]
  by_cases hendif : type = TT_POUND_ENDIF
  · rw [if_pos hendif] at h
    rw [if_pos hendif]
    cases h
    rfl
  rw [if_neg hendif] at h
  rw [if_neg hendif]
  by_cases hskip : st.pp.skipFlag = true
  · rw [if_pos (.inr hskip)] at h
    cases h
    by_cases htype : type = TT_POUND_IFDEF
    · rw [if_pos htype, hskip]
      rfl
    · rw [if_neg htype]
      by_cases hreplaced : st.Replaced type text
      · rw [if_pos hreplaced]
        rfl
      · rw [if_neg hreplaced]
        rfl
  · rw [if_neg (not_or.2 ⟨hcomment, hskip⟩)] at h
    rw [Bool.not_eq_true] at hskip
    rw [(keep_cases h).flag]
    by_cases htype : type = TT_POUND_IFDEF
    · rw [if_pos htype, if_pos htype, hskip]
      rfl
    · rw [if_neg htype, if_neg htype]
      by_cases hreplaced : st.Replaced type text
      · rw [if_pos hreplaced]
        rfl
      · rw [if_neg hreplaced]
        rfl

/-- Between the tokens of the main loop the flag stays. -/
theorem step_flag_other (hat : st.at_ ≠ .loop) (h : st.step lib = .inl st') :
    st'.pp.skipFlag = st.pp.skipFlag := by
  rw [step] at h
  cases hcase : st.at_ with
  | loop => exact absurd hcase hat
  | argsOpen name value =>
      rw [hcase] at h
      obtain ⟨type, text, rest, -, hturn⟩ := lex_cases h
      by_cases hopen : type = TT_OPEN_PAREN
      · rw [if_pos hopen] at hturn
        cases hturn
        rfl
      · rw [if_neg hopen] at hturn
        cases hturn
  | args name value i =>
      rw [hcase] at h
      obtain ⟨type, text, rest, -, hturn⟩ := lex_cases h
      obtain ⟨-, rfl | rfl | rfl⟩ := argTurn_cases hturn
      · rfl
      · rfl
      · rfl
  | namesOpen name numArgs =>
      rw [hcase] at h
      obtain ⟨type, text, rest, -, hturn⟩ := lex_cases h
      by_cases hopen : type = TT_OPEN_PAREN
      · rw [if_pos hopen] at hturn
        cases hturn
        rfl
      · rw [if_neg hopen] at hturn
        cases hturn
  | names name numArgs i =>
      rw [hcase] at h
      obtain ⟨type, text, rest, -, hturn⟩ := lex_cases h
      obtain ⟨-, rfl | rfl | ⟨arg, rfl, -⟩⟩ := nameTurn_cases hturn
      · rfl
      · rfl
      · rfl
  | search file i =>
      rw [hcase] at h
      dsimp only at h
      cases hpath : st.pp.macros (includeStr i) with
      | none =>
          rw [hpath] at h
          cases h
      | some path =>
          simp only [hpath] at h
          cases hfile : lib.files.lookup (path ++ chr '/' :: file) with
          | none =>
              rw [hfile] at h
              cases h
              rfl
          | some source =>
              rw [hfile] at h
              cases h
              rfl

theorem step_flag (h : st.step lib = .inl st') :
    st'.pp.skipFlag = (st.event lib).flag st.pp.skipFlag := by
  by_cases hat : st.at_ = .loop
  · rw [step, hat] at h
    obtain ⟨type, text, rest, htoken, hturn⟩ := lex_cases h
    have hevent : st.event lib = st.tokenEvent type text := by
      rw [event, hat, htoken]
    have hflag := turn_flag hturn
    rw [hevent]
    exact hflag
  · have hevent : st.event lib = .other := by
      by_contra hne
      obtain ⟨_, _, _, hloop, _⟩ := event_ne_other hne
      exact hat hloop
    rw [hevent]
    exact step_flag_other hat h

theorem tokenEvent_token {t : UInt8} (h : st.tokenEvent type text = .token t) :
    t = type ∧ ¬ (type = TT_NULL_TOKEN ∨ st.top.esc ∧ type = TT_END_OF_LINE ∨ type = TT_ESC ∨
      type = TT_COMMENT) ∧ type ≠ TT_POUND_ELSE ∧ type ≠ TT_POUND_ENDIF ∧
      ¬ st.Replaced type text := by
  rw [tokenEvent] at h
  split_ifs at h with hother helse hendif hifdef hreplaced
  cases h
  exact ⟨rfl, hother, helse, hendif, hreplaced⟩

theorem turn_token {t : UInt8} (h : st.tokenEvent type text = .token t) :
    ∃ st', turn lib type text st = .inl st' ∧
      if st.pp.skipFlag = true then st'.pp.program = st.pp.program else Stored t st st' := by
  obtain ⟨rfl, hother, helse, hendif, hreplaced⟩ := tokenEvent_token h
  have hnull : t ≠ TT_NULL_TOKEN := fun htype => hother (.inl htype)
  have hescaped : ¬ (st.top.esc ∧ t = TT_END_OF_LINE) := fun hand => hother (.inr (.inl hand))
  have hesc : t ≠ TT_ESC := fun htype => hother (.inr (.inr (.inl htype)))
  have hcomment : t ≠ TT_COMMENT := fun htype => hother (.inr (.inr (.inr htype)))
  rw [turn, if_neg hnull, if_neg hescaped, if_neg hesc]
  dsimp only
  rw [if_neg helse, if_neg hendif]
  cases hskip : st.pp.skipFlag with
  | true =>
      rw [if_pos (.inr rfl)]
      exact ⟨_, rfl, rfl⟩
  | false =>
      rw [if_neg (not_or.2 ⟨hcomment, Bool.false_ne_true⟩)]
      let moved : Reading := { st with
        top := { st.top with
          lineNumber := st.top.lineNumber + if t = TT_STRING ∨ t = TT_POUND_DEFINE ∨
            t = TT_COMMENT then newLines text else 0
          esc := false } }
      have hmoved : ¬ moved.Replaced t text := hreplaced
      obtain ⟨bytes, lineNumber, hkeep⟩ := keep_stored lib hmoved
      exact ⟨_, hkeep, bytes, rfl⟩

/-- A token of the text is stored, unless the flag is set. -/
theorem step_token (h : st.event lib = .token type) :
    ∃ st', st.step lib = .inl st' ∧
      if st.pp.skipFlag = true then st'.pp.program = st.pp.program else Stored type st st' := by
  have hother : st.event lib ≠ .other := by
    rw [h]
    exact fun heq => PpEvent.noConfusion heq
  obtain ⟨type', text, rest, -, -, hevent, hstep⟩ := event_ne_other hother
  have hmoved : (st.moveTo rest).tokenEvent type' text = .token type := hevent.symm.trans h
  rw [hstep]
  exact turn_token hmoved

end

/-! ## Over the whole reading -/

def ProgramStart (s : Reading × List Bool) : Prop :=
  ∃ file text ppFlag pp, pp.skipFlag = false ∧ s = (start file text ppFlag pp, [])

/-- Only the innermost region may be left out, and the flag is about that one. -/
def FlagRight (skipFlag : Bool) : List Bool → Prop
  | [] => skipFlag = false
  | region :: outer => skipFlag = !region ∧ ∀ r ∈ outer, r = true

section

variable {lib : PpLibrary} {type : UInt8} {s s' : Reading × List Bool}

theorem FlagRight.iff {skipFlag : Bool} {regions : List Bool} (h : FlagRight skipFlag regions) :
    skipFlag = false ↔ ∀ region ∈ regions, region = true := by
  cases regions with
  | nil => exact iff_of_true h fun _ hmem => absurd hmem List.not_mem_nil
  | cons region outer =>
      obtain ⟨hflag, houter⟩ := h
      rw [hflag, List.forall_mem_cons, Bool.not_eq_false']
      exact ⟨fun hregion => ⟨hregion, houter⟩, fun hall => hall.1⟩

theorem FlagRight.next {skipFlag : Bool} {regions : List Bool} {e : PpEvent}
    (h : FlagRight skipFlag regions) (hnested : e = .else_ ∨ e = .endif → regions ≠ [])
    (hkept : ∀ holds, e = .ifdef holds → ∀ region ∈ regions, region = true) :
    FlagRight (e.flag skipFlag) (e.regions regions) := by
  cases e with
  | ifdef holds =>
      have hall := hkept holds rfl
      have hflag : skipFlag = false := h.iff.2 hall
      refine ⟨?_, hall⟩
      rw [hflag]
      exact Bool.false_or _
  | else_ =>
      cases regions with
      | nil => exact absurd rfl (hnested (.inl rfl))
      | cons region outer => exact ⟨congrArg not h.1, h.2⟩
  | endif =>
      cases regions with
      | nil => exact absurd rfl (hnested (.inr rfl))
      | cons region outer =>
          cases outer with
          | nil => exact rfl
          | cons region outer =>
              obtain ⟨hregion, houter⟩ := List.forall_mem_cons.1 h.2
              refine ⟨?_, houter⟩
              rw [hregion]
              rfl
  | token type => exact h
  | other => exact h

theorem regionStep_some (h : regionStep lib s () = some s') :
    s.1.step lib = .inl s'.1 ∧ s'.2 = (s.1.event lib).regions s.2 := by
  rw [regionStep] at h
  cases hstep : s.1.step lib with
  | inr r =>
      rw [hstep] at h
      cases h
  | inl st =>
      rw [hstep] at h
      cases h
      exact ⟨rfl, rfl⟩

theorem flag_right
    (h : Runs.Reaches (regionStep lib) (fun s _ => InRegion lib s ∧ KeptIfdef lib s) ProgramStart s) :
    FlagRight s.1.pp.skipFlag s.2 := by
  let inv : Reading × List Bool → Prop := fun s => FlagRight s.1.pp.skipFlag s.2
  have hinvariant : inv s := by
    refine h.invariant ?_ ?_
    · rintro s ⟨file, text, ppFlag, pp, hflag, rfl⟩
      exact hflag
    · intro s a s' hs hok hstep
      obtain ⟨hnext, hregions⟩ := regionStep_some hstep
      change FlagRight _ _
      rw [step_flag hnext, hregions]
      exact FlagRight.next hs hok.1 hok.2
  exact hinvariant

/-- When no `#ifdef` stands in a part that is left out, a token is stored exactly when the
conditions of all the regions around it hold. -/
theorem stored_iff_regions_hold
    (h : Runs.Reaches (regionStep lib) (fun s _ => InRegion lib s ∧ KeptIfdef lib s) ProgramStart s)
    (hevent : s.1.event lib = .token type) :
    ∃ st, s.1.step lib = .inl st ∧ (Stored type s.1 st ↔ ∀ region ∈ s.2, region = true) ∧
      (¬ Stored type s.1 st → st.pp.program = s.1.pp.program) := by
  obtain ⟨st, hstep, hstored⟩ := step_token hevent
  have hright := (flag_right h).iff
  refine ⟨st, hstep, ?_⟩
  cases hflag : s.1.pp.skipFlag with
  | false =>
      rw [hflag] at hstored hright
      exact ⟨iff_of_true hstored (hright.1 rfl), fun hnot => absurd hstored hnot⟩
  | true =>
      rw [hflag] at hstored hright
      have hnot : ¬ Stored type s.1 st := by
        rintro ⟨bytes, hbytes⟩
        rw [if_pos rfl] at hstored
        rw [hstored] at hbytes
        exact absurd (List.self_eq_append_right.1 hbytes) (List.cons_ne_nil _ _)
      exact ⟨iff_of_false hnot fun hall => Bool.noConfusion (hright.2 hall), fun _ => hstored⟩

end

section

def onward (lib : PpLibrary) (s : Reading × List Bool) : Reading × List Bool :=
  (s.1.next lib, (s.1.event lib).regions s.2)

theorem regionStep_onward {lib : PpLibrary} {s : Reading × List Bool}
    (h : (s.1.step lib).isLeft = true) : regionStep lib s () = some (onward lib s) := by
  rw [regionStep, step_next h]
  rfl

def noKeywords : PpLibrary := ⟨fun _ => TT_UNKNOWN, fun _ => TT_UNKNOWN, [], fun _ => []⟩

def startOf (source : String) : Reading × List Bool :=
  (start (cstr "program") (cstr source) true ⟨[], false, fun _ => none⟩, [])

theorem startOf_start (source : String) : ProgramStart (startOf source) :=
  ⟨_, _, _, _, rfl, rfl⟩

instance (lib : PpLibrary) (s : Reading × List Bool) : Decidable (InRegion lib s) :=
  inferInstanceAs (Decidable (_ ∨ _ → _))

instance (lib : PpLibrary) (s : Reading × List Bool) : Decidable (KeptIfdef lib s) :=
  inferInstanceAs (Decidable (∀ _ : Bool, _ → ∀ region ∈ s.2, region = true))

theorem reaches_onward (ok : Reading × List Bool → Prop) (source : String) (n : ℕ)
    (h : ∀ k < n, ok ((onward noKeywords)^[k] (startOf source)) ∧
      (((onward noKeywords)^[k] (startOf source)).1.step noKeywords).isLeft = true) :
    Runs.Reaches (regionStep noKeywords) (fun s _ => ok s) ProgramStart
      ((onward noKeywords)^[n] (startOf source)) := by
  have hnext : ∀ k < n, ok ((onward noKeywords)^[k] (startOf source)) ∧
      regionStep noKeywords ((onward noKeywords)^[k] (startOf source)) () =
        some (onward noKeywords ((onward noKeywords)^[k] (startOf source))) := by
    intro k hk
    obtain ⟨hok, hleft⟩ := h k hk
    exact ⟨hok, regionStep_onward hleft⟩
  exact Runs.Reaches.iterate (.start (startOf_start source)) hnext

def leftOutIdentifier : Reading × List Bool :=
  (onward noKeywords)^[2] (startOf "#ifdef A\nx\n#endif\n")

theorem leftOutIdentifier_event :
    leftOutIdentifier.1.event noKeywords = .token TT_IDENTIFIER ∧ leftOutIdentifier.2 = [false] := by
  decide +kernel

theorem stored_iff_regions_hold_once :
    ∃ st, leftOutIdentifier.1.step noKeywords = .inl st ∧
      (Stored TT_IDENTIFIER leftOutIdentifier.1 st ↔
        ∀ region ∈ leftOutIdentifier.2, region = true) ∧
      (¬ Stored TT_IDENTIFIER leftOutIdentifier.1 st →
        st.pp.program = leftOutIdentifier.1.pp.program) := by
  have hreaches := reaches_onward
    (fun s => InRegion noKeywords s ∧ KeptIfdef noKeywords s) "#ifdef A\nx\n#endif\n" 2
    (by decide +kernel)
  exact stored_iff_regions_hold hreaches leftOutIdentifier_event.1

def identifierBehind : Reading × List Bool :=
  (onward noKeywords)^[6] (startOf "#ifdef A\n#ifdef B\n#endif\ny\n#endif\n")

theorem not_always_stored_right :
    Runs.Reaches (regionStep noKeywords) (fun s _ => InRegion noKeywords s) ProgramStart
        identifierBehind ∧
      identifierBehind.1.event noKeywords = .token TT_IDENTIFIER ∧
      identifierBehind.2 = [false] ∧
      ∃ st, identifierBehind.1.step noKeywords = .inl st ∧
        Stored TT_IDENTIFIER identifierBehind.1 st := by
  have hevent : identifierBehind.1.event noKeywords = .token TT_IDENTIFIER := by
    decide +kernel
  have hflag : identifierBehind.1.pp.skipFlag = false := by
    decide +kernel
  obtain ⟨st, hstep, hstored⟩ := step_token hevent
  rw [hflag] at hstored
  exact ⟨reaches_onward _ _ _ (by decide +kernel), hevent, by decide +kernel, st, hstep, hstored⟩

end

end Reading

end ScOpen
