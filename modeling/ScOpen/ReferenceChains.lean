import ScOpen.ReferenceCalls

/-!
# Chains of references

A reference to a parameter names the parameter's entry, which holds a name itself. So where a
variable is passed on twice, what is read is the text of a name and never what the variable holds.
-/

namespace ScOpen

def HeldBy (st : Store) (w target : Bytes) : Prop := ∀ u ∈ st, u.value = w → u.name = target

def Unheld (st : Store) (w : Bytes) : Prop := ∀ u ∈ st, u.value ≠ w

section

variable {m : QueueMemory} {lib : StoreLibrary} {st st' : Store} {pos : Position}
  {name full w target : Bytes} {c : RefCall}

theorem enter_writes (hm : 0 < m.sizeofType) (hst : Ordered lib st)
    (hget : variableGet lib st pos name .userRef = some full)
    (h : c.enter m lib st pos name = some st') :
    ∃ st₁, variablePut lib st pos (cstr "RETURN." ++ c.nest) c.idx 0 .sc = some st₁ ∧
      variablePut lib st₁ c.callee c.param (m.passed full) (m.passed full).length .userRef =
        some st' ∧
      Writes lib st₁ st' c.key (paramEntry lib st₁ c.key (m.passed full)) := by
  rw [enter_eq hm hget] at h
  obtain ⟨st₁, hreturn, hparam⟩ := Option.bind_eq_some_iff.1 h
  rcases variablePut_spec hst pos (cstr "RETURN." ++ c.nest) c.idx 0 .sc with
    ⟨-, hnone⟩ | ⟨n, v, st₂, -, hput, hord, hentries⟩
  · rw [hnone] at hreturn
    cases hreturn
  rw [hput] at hreturn
  cases hreturn
  have hne : st₁ ≠ [] := by
    have hsome : entry st₁ n = some v := by rw [hentries, if_pos rfl]
    exact ne_nil_of_entry hsome
  obtain ⟨st₂, hrun, hwrites⟩ := put_param hord hne c (m.passed full)
  rw [hrun] at hparam
  cases hparam
  exact ⟨st₁, hput, hrun, hwrites⟩

theorem enter_mem (hm : 0 < m.sizeofType) (hst : Ordered lib st)
    (hget : variableGet lib st pos name .userRef = some full)
    (h : c.enter m lib st pos name = some st') {u : Variable} (hu : u ∈ st') :
    u ∈ st ∨ u.value = putValue c.idx 0 ∨ u.value = m.passed full := by
  obtain ⟨st₁, hreturn, hparam, -⟩ := enter_writes hm hst hget h
  rcases variablePut_mem hparam hu with hold | hvalue
  · exact (variablePut_mem hreturn hold).imp_right .inl
  · rw [putValue_length] at hvalue
    exact .inr (.inr hvalue)

/-- A parameter that is read gives a value of the store. -/
theorem read_param_ne (hst : Ordered lib st') {v : Variable} (hv : entry st' c.key = some v)
    (hne : v.value ≠ w) (hother : ∀ u ∈ st', u.value = w → u.name ≠ cString v.value) :
    variableGet lib st' c.callee c.param .user ≠ some w := by
  rw [variableGet_some hst (resolve_param rfl hv), if_neg (by decide), valueOf]
  split_ifs with href
  · intro hread
    obtain ⟨⟨n, u⟩, hlook, hvalue⟩ := Option.map_eq_some_iff.1 hread
    obtain ⟨i, hi, hfound⟩ := Option.bind_eq_some_iff.1 hlook
    obtain ⟨x, hx, hname⟩ := bsearch_some hi
    rw [hx] at hfound
    cases hfound
    exact hother u (List.mem_of_getElem? hx) hvalue hname
  · intro hread
    exact hne (Option.some.inj hread)

/-- The innermost parameter does not give the value when its reference leads elsewhere. -/
theorem enter_ne (hm : 0 < m.sizeofType) (hst : Ordered lib st) (hheld : HeldBy st w target)
    (hget : variableGet lib st pos name .userRef = some full) (hidx : putValue c.idx 0 ≠ w)
    (hpassed : m.passed full ≠ w) (hlast : Unheld st w ∨ cString (m.passed full) ≠ target)
    (h : c.enter m lib st pos name = some st') :
    variableGet lib st' c.callee c.param .user ≠ some w := by
  obtain ⟨st₁, -, -, hord, hentries⟩ := enter_writes hm hst hget h
  have hentry := hentries c.key
  rw [if_pos rfl] at hentry
  have hvalue : (paramEntry lib st₁ c.key (m.passed full)).value = m.passed full :=
    paramEntry_value _ _
  refine read_param_ne hord hentry (hvalue.trans_ne hpassed) fun u hu huw => ?_
  rw [hvalue]
  rcases enter_mem hm hst hget h hu with hold | hreturn | hparam
  · rcases hlast with hnone | hother
    · exact absurd huw (hnone u hold)
    · rw [hheld u hold huw]
      exact hother.symm
  · exact absurd (hreturn.symm.trans huw) hidx
  · exact absurd (hparam.symm.trans huw) hpassed

/-- What one gosub leaves for the next one. -/
theorem enter_state (hm : 0 < m.sizeofType) (hst : Ordered lib st) (hheld : HeldBy st w target)
    (hget : variableGet lib st pos name .userRef = some full) (hidx : putValue c.idx 0 ≠ w)
    (hpassed : m.passed full ≠ w) (h : c.enter m lib st pos name = some st') :
    Ordered lib st' ∧ variableGet lib st' c.callee c.param .userRef = some c.key ∧
      HeldBy st' w target ∧ (Unheld st' w ∨ c.key ≠ target) := by
  obtain ⟨st₁, -, -, hord, hentries⟩ := enter_writes hm hst hget h
  have hentry := hentries c.key
  rw [if_pos rfl] at hentry
  have hheld' : HeldBy st' w target := by
    intro u hu huw
    rcases enter_mem hm hst hget h hu with hold | hreturn | hparam
    · exact hheld u hold huw
    · exact absurd (hreturn.symm.trans huw) hidx
    · exact absurd (hparam.symm.trans huw) hpassed
  refine ⟨hord, ?_, hheld', ?_⟩
  · rw [variableGet_some hord (resolve_param rfl hentry), if_pos rfl, paramEntry_name]
  · by_cases hkey : c.key = target
    · left
      intro u hu huw
      have hname := hheld' u hu huw
      rw [← hkey] at hname
      have hne : c.key ≠ [] := ne_nil_of_head (labelKey_head _ _ _)
      rw [hord.entry_iff.2 ⟨hu, hname, hne⟩] at hentry
      have hvalue := congrArg Variable.value (Option.some.inj hentry)
      rw [paramEntry_value] at hvalue
      exact hpassed (hvalue.symm.trans huw)
    · exact .inr hkey

/-- The state in front of the last of some nested gosubs. -/
theorem enterCalls_state (hm : 0 < m.sizeofType) {calls : List RefCall} (hst : Ordered lib st)
    (hheld : HeldBy st w target) (hget : variableGet lib st pos name .userRef = some full)
    (hidx : ∀ c ∈ calls, putValue c.idx 0 ≠ w)
    (hpassed : ∀ n ∈ full :: calls.map RefCall.key, m.passed n ≠ w) {pos' : Position}
    {name' : Bytes} (h : enterCalls m lib st pos name calls = some (st', pos', name')) :
    Ordered lib st' ∧ HeldBy st' w target ∧
      variableGet lib st' pos' name' .userRef =
        some ((calls.map RefCall.key).getLastD full) ∧
      (calls ≠ [] → Unheld st' w ∨ (calls.map RefCall.key).getLastD full ≠ target) := by
  induction calls generalizing st pos name full with
  | nil =>
      cases h
      exact ⟨hst, hheld, hget, fun hne => absurd rfl hne⟩
  | cons c calls ih =>
      obtain ⟨st₁, henter, hrest⟩ := Option.bind_eq_some_iff.1 h
      obtain ⟨hst₁, hget₁, hheld₁, hkey⟩ := enter_state hm hst hheld hget
        (hidx c List.mem_cons_self) (hpassed full List.mem_cons_self) henter
      obtain ⟨hst', hheld', hget', hlast⟩ := ih hst₁ hheld₁ hget₁
        (fun c hc => hidx c (List.mem_cons_of_mem _ hc))
        (fun n hn => hpassed n (List.mem_cons_of_mem _ hn)) hrest
      rw [List.map_cons, List.getLastD_cons]
      refine ⟨hst', hheld', hget', fun _ => ?_⟩
      cases calls with
      | nil =>
          cases hrest
          exact hkey
      | cons c' calls => exact hlast (List.cons_ne_nil _ _)

theorem enterCalls_append (calls : List RefCall) (c : RefCall) :
    enterCalls m lib st pos name (calls ++ [c]) =
      (enterCalls m lib st pos name calls).bind fun s =>
        (c.enter m lib s.1 s.2.1 s.2.2).map fun st => (st, c.callee, c.param) := by
  induction calls generalizing st pos name with
  | nil =>
      rw [List.nil_append, enterCalls, enterCalls, Option.bind_some]
      cases c.enter m lib st pos name <;> rfl
  | cons d calls ih =>
      rw [List.cons_append, enterCalls, enterCalls, Option.bind_assoc]
      congr 1
      funext st₁
      exact ih

/-- Nested gosubs do not lead back to the variable, when the last one's reference leads elsewhere or
the one before it has passed on a parameter. -/
theorem enterCalls_ne (hm : 0 < m.sizeofType) {calls : List RefCall} {c : RefCall}
    (hst : Ordered lib st) (hheld : HeldBy st w target)
    (hget : variableGet lib st pos name .userRef = some full)
    (hidx : ∀ d ∈ calls ++ [c], putValue d.idx 0 ≠ w)
    (hpassed : ∀ n ∈ full :: calls.map RefCall.key, m.passed n ≠ w)
    (hlast : cString (m.passed ((calls.map RefCall.key).getLastD full)) ≠ target ∨
      (calls ≠ [] ∧ cString (m.passed ((calls.map RefCall.key).getLastD full)) =
        (calls.map RefCall.key).getLastD full))
    {pos' : Position} {name' : Bytes}
    (h : enterCalls m lib st pos name (calls ++ [c]) = some (st', pos', name')) :
    variableGet lib st' pos' name' .user ≠ some w := by
  rw [enterCalls_append] at h
  obtain ⟨⟨st₁, pos₁, name₁⟩, hcalls, hmap⟩ := Option.bind_eq_some_iff.1 h
  obtain ⟨st₂, henter, heq⟩ := Option.map_eq_some_iff.1 hmap
  cases heq
  obtain ⟨hst₁, hheld₁, hget₁, hkeys⟩ := enterCalls_state hm hst hheld hget
    (fun d hd => hidx d (List.mem_append_left _ hd)) hpassed hcalls
  have hmem : (calls.map RefCall.key).getLastD full ∈ full :: calls.map RefCall.key :=
    List.getLastD_mem_cons
  refine enter_ne hm hst₁ hheld₁ hget₁ (hidx c (List.mem_append_right _ List.mem_cons_self))
    (hpassed _ hmem) ?_ henter
  rcases hlast with hother | ⟨hsome, hself⟩
  · exact .inr hother
  · rw [hself]
    exact hkeys hsome

end

end ScOpen
