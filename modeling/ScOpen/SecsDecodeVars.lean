import ScOpen.SmlVariables
import ScOpen.SecsDecodeAccepts

/-!
# Decoding what was encoded

A run of the decoder over the bytes of a message goes through the items in order and adds the
variables of each. Variables are only ever added, so the variables at the end tell the values
of every item.
-/

namespace ScOpen

/-! ## One turn of a run -/

section

variable (fl : FloatText) (varPrefix : Bytes)

structure Passes (r : ℕ × DecodeState) (rest : Bytes) (frames : List Frame)
    (vars : List TmpVariable) : Prop where
  run : ∃ pad log, decodeLoop fl varPrefix ⟨cursorAt rest, frames, pad, log, vars⟩ = .ok r
  fits : rest.length < 2 ^ 32
  bottom : BottomOpen rest.length frames

variable {fl : FloatText} {varPrefix : Bytes} {r : ℕ × DecodeState} {rest : Bytes}
  {frames : List Frame} {vars : List TmpVariable}

theorem Passes.turn (hpass : Passes fl varPrefix r rest frames vars) {body : Bytes} {hd : Header}
    {t : SecsType} (hh : takeHeader rest = some (hd, body)) (ht : secsType? hd.code = some t) :
    Passes fl varPrefix r (body.drop (t.ownBytes hd.size)) (framesAfter t hd.size frames)
      (vars ++ itemVars fl t (nextName varPrefix frames) hd.size body) := by
  obtain ⟨⟨pad, log, hrun⟩, hlen, hbottom⟩ := hpass
  have hbody : body.length < rest.length := takeHeader_length hh
  have hlength : (cursorAt rest).length ≠ 0 := by
    simp only [cursorAt]
    omega
  rw [decodeLoop_eq, if_neg hlength] at hrun
  cases hturn : decodeTurn fl varPrefix ⟨cursorAt rest, frames, pad, log, vars⟩ with
  | error fault => simp [hturn] at hrun
  | ok r' =>
      obtain ⟨hd', body', hbody', hfits, hr⟩ := fits_of_decodeTurn fl varPrefix rfl hturn
      rw [hh] at hbody'
      cases hbody'
      rw [ht] at hr
      cases r' with
      | unknown st' => exact hr.elim
      | next st' =>
          have hdrop : (body.drop (t.ownBytes hd.size)).length < rest.length := by
            rw [List.length_drop]
            omega
          have hbottom' := hbottom.framesAfter hdrop t hd.size
          obtain ⟨log, hturn'⟩ := decodeTurn_ok fl varPrefix hlen rfl hh ht hr hfits
            hbottom'.ne_nil hbottom.ne_nil
          rw [hturn'] at hturn
          cases hturn
          simp only [hturn'] at hrun
          exact ⟨⟨_, _, hrun⟩, hdrop.trans hlen, hbottom'⟩

theorem Passes.finished (hpass : Passes fl varPrefix r [] frames vars) : r.2.vars = vars := by
  obtain ⟨⟨pad, log, hrun⟩, -, -⟩ := hpass
  rw [decodeLoop_eq, if_pos (by rfl)] at hrun
  cases hrun
  rfl

/-- A run that cannot go on to another item has all its variables. -/
theorem Passes.stopped (hpass : Passes fl varPrefix r rest frames vars) (hne : rest ≠ [])
    (hstop : ∀ hd body, takeHeader rest = some (hd, body) → secsType? hd.code = none) :
    r.2.vars = vars := by
  obtain ⟨⟨pad, log, hrun⟩, hlen, hbottom⟩ := hpass
  have hlength : (cursorAt rest).length ≠ 0 := by simpa [cursorAt] using hne
  rw [decodeLoop_eq, if_neg hlength] at hrun
  cases hturn : decodeTurn fl varPrefix ⟨cursorAt rest, frames, pad, log, vars⟩ with
  | error fault => simp [hturn] at hrun
  | ok r' =>
      obtain ⟨hd, body, hh, hfits, -⟩ := fits_of_decodeTurn fl varPrefix rfl hturn
      rw [decodeTurn_eq fl varPrefix hlen rfl hbottom.ne_nil hh hfits.name hfits.column,
        hstop hd body hh] at hrun
      cases hrun
      rfl

/-- Variables are only ever added. -/
theorem Passes.extends (hpass : Passes fl varPrefix r rest frames vars) :
    ∃ more, r.2.vars = vars ++ more := by
  induction hn : rest.length using Nat.strong_induction_on generalizing rest frames vars with
  | _ n ih =>
  by_cases hnil : rest = []
  · subst hnil
    exact ⟨[], by rw [hpass.finished, List.append_nil]⟩
  by_cases hstop : ∀ hd body, takeHeader rest = some (hd, body) → secsType? hd.code = none
  · exact ⟨[], by rw [hpass.stopped hnil hstop, List.append_nil]⟩
  · push Not at hstop
    obtain ⟨hd, body, hh, ht⟩ := hstop
    obtain ⟨t, ht⟩ := Option.ne_none_iff_exists'.1 ht
    have hbody : body.length < rest.length := takeHeader_length hh
    have hshort : (body.drop (t.ownBytes hd.size)).length < n := by
      rw [List.length_drop]
      omega
    obtain ⟨more, hmore⟩ := ih _ hshort (hpass.turn hh ht) rfl
    exact ⟨_, by rw [hmore, List.append_assoc]⟩

/-! ## The names of items -/

theorem itemName_cons (varPrefix : Bytes) (f : Frame) (below : List Frame) :
    itemName varPrefix (f :: below) = positionName (itemName varPrefix below) f.ie := by
  have htext : myItoa (f.ie : ℤ) = intText f.ie := myItoa_eq_intText (by omega)
  simp only [itemName, positionName, List.reverse_cons, List.flatMap_append, List.flatMap_cons,
    List.flatMap_nil, List.append_nil, htext, List.append_assoc]

theorem nextName_eq (varPrefix : Bytes) (top : Frame) (below : List Frame) :
    nextName varPrefix (top :: below) = positionName (itemName varPrefix below) (top.ie + 1) := by
  rw [nextName, entered, itemName_cons]

end

/-! ## The variables of one item -/

def Leaf.IsInteger : Leaf → Prop
  | .integers _ _ => True
  | _ => False

theorem storedData_integers {t : IntegerType} {vs : List Decimal}
    (hok : (Leaf.integers t vs).rejected = false) :
    (Leaf.integers t vs).storedData = vs.flatMap fun d => integerBytes t.width (d.stored t) := by
  have hall : ∀ d ∈ vs, d.rejected t = false := by
    simpa [Leaf.rejected] using hok
  simp only [Leaf.storedData]
  refine List.flatMap_congr fun d hd => ?_
  simp [Decimal.storedBytes, hall d hd]

theorem itemVars_integers (fl : FloatText) {t : IntegerType} {vs : List Decimal}
    (hok : (Leaf.integers t vs).rejected = false) (name : Bytes) {n : ℕ} (hn : n ≤ vs.length)
    (tail : Bytes) :
    itemVars fl (Leaf.integers t vs).secsType name (t.width * n)
        ((Leaf.integers t vs).storedData ++ tail) =
      numberVars t name ((vs.take n).map fun d => intText (t.wrap (d.stored t))) := by
  rw [storedData_integers hok]
  exact elementItemVars_integers fl t name n vs tail hn

theorem nil_notMem_texts (x : Decimal → ℤ) (vs : List Decimal) :
    [] ∉ vs.map fun d => intText (x d) := by
  intro h
  obtain ⟨d, -, htext⟩ := List.mem_map.1 h
  exact intText_ne_nil _ htext

/-- The decoder's variables for an item whose values are all kept. -/
theorem Leaf.itemVars_kept (fl : FloatText) {v : Leaf} (hint : v.IsInteger) (hkept : v.Kept)
    (name : Bytes) (tail : Bytes) :
    itemVars fl v.secsType name v.data.length (v.data ++ tail) = v.vars name := by
  have hok := hkept.rejected
  have hdata := hkept.storedData
  cases v with
  | integers t vs =>
      have hlen : (Leaf.integers t vs).data.length = t.width * vs.length := length_integers _ _ _
      have hitem := itemVars_integers fl hok name le_rfl tail
      rw [hdata, ← hlen] at hitem
      rw [hitem, List.take_length, Leaf.vars]
      congr 1
      refine List.map_congr_left fun d hd => ?_
      rw [(d.kept_iff t (hkept d hd).2.1).1 (hkept d hd)]
  | _ => exact hint.elim

/-- The variables of an item tell whether all its values are kept and its length is. -/
theorem Leaf.kept_of_itemVars (fl : FloatText) {v : Leaf} (hint : v.IsInteger)
    (hok : v.rejected = false) {size : ℕ} (hsize : size = v.storedData.length % 2 ^ 24)
    {name tail : Bytes} {vars vars' : List TmpVariable}
    (h : itemVars fl v.secsType name size (v.storedData ++ tail) ++ vars =
      v.vars name ++ vars') : v.Kept ∧ v.data.length < 2 ^ 24 := by
  cases v with
  | integers t vs =>
      have hlen : (Leaf.integers t vs).storedData.length = t.width * vs.length := by
        rw [storedData_integers hok]
        exact length_integers _ _ _
      have hwidth : ∃ m, 2 ^ 24 = t.width * m := by
        cases t
        exacts [⟨2 ^ 24, rfl⟩, ⟨2 ^ 23, rfl⟩, ⟨2 ^ 22, rfl⟩, ⟨2 ^ 21, rfl⟩, ⟨2 ^ 24, rfl⟩,
          ⟨2 ^ 23, rfl⟩, ⟨2 ^ 22, rfl⟩, ⟨2 ^ 21, rfl⟩]
      obtain ⟨m, hm⟩ := hwidth
      have hsize' : size = t.width * (vs.length % m) := by
        rw [hsize, hlen, hm, Nat.mul_mod_mul_left]
      have hn : vs.length % m ≤ vs.length := Nat.mod_le _ _
      rw [hsize', itemVars_integers fl hok name hn, Leaf.vars] at h
      have htexts := numberVars_inj (nil_notMem_texts _ _) (nil_notMem_texts _ _) h
      have hcount : vs.length % m = vs.length := by
        have hlength := congrArg List.length htexts
        rw [List.length_map, List.length_map, List.length_take, Nat.min_eq_left hn] at hlength
        exact hlength
      rw [hcount, List.take_length] at htexts
      constructor
      · intro d hd
        have hrej : d.rejected t = false := by
          have hall : ∀ d ∈ vs, d.rejected t = false := by simpa [Leaf.rejected] using hok
          exact hall d hd
        rw [d.kept_iff t hrej]
        exact intText_injective (List.map_inj_left.1 htexts d hd)
      · have hpos : 0 < m := by
          rcases Nat.eq_zero_or_pos m with rfl | hpos
          · simp at hm
          · exact hpos
        have hlt : vs.length < m := by
          rw [← hcount]
          exact Nat.mod_lt _ hpos
        have hdata : (Leaf.integers t vs).data.length = t.width * vs.length := length_integers _ _ _
        rw [hdata, hm]
        exact Nat.mul_lt_mul_of_pos_left hlt t.width_pos
  | _ => exact hint.elim

end ScOpen
