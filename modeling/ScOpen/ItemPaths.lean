import Mathlib.Data.List.Nodup
import ScOpen.LogItems
import ScOpen.SecsRoundTrip
import ScOpen.StoredElements

/-!
# Item paths

The decoder goes through a message item by item, with a stack of counters for the lists that are
open. Over the tree of the items of a well-formed message the names of the variables that it stores
are the paths of the items in document order, where each item has a variable; and its log shows each
item once and closes each list with items once.
-/

namespace ScOpen

inductive ItemTree where
  | done
  | list (kids next : ItemTree)
  | data (t : SecsType) (data : Bytes) (next : ItemTree)

namespace ItemTree

def count : ItemTree → ℕ
  | .done => 0
  | .list _ next => next.count + 1
  | .data _ _ next => next.count + 1

inductive Encodes : ItemTree → Bytes → Prop where
  | done : Encodes .done []
  | list {k : ℕ} {kids next : ItemTree} {kidBytes nextBytes : Bytes} (hk : k ∈ [1, 2, 3])
      (hsize : kids.count < 256 ^ k) (hkids : kids.Encodes kidBytes)
      (hnext : next.Encodes nextBytes) :
      Encodes (.list kids next) (headerBytes .list k kids.count ++ kidBytes ++ nextBytes)
  | data {k : ℕ} {t : SecsType} {data : Bytes} {next : ItemTree} {nextBytes : Bytes}
      (hk : k ∈ [1, 2, 3]) (hsize : data.length < 256 ^ k) (ht : t.HoldsData data.length)
      (hnext : next.Encodes nextBytes) :
      Encodes (.data t data next) (headerBytes t k data.length ++ data ++ nextBytes)

theorem Encodes.items {f : ItemTree} {bs : Bytes} (h : f.Encodes bs) : Items f.count bs := by
  induction h with
  | done => exact .nil
  | list hk hsize _ _ ihkids ihnext => exact .list hk hsize ihkids ihnext
  | data hk hsize ht _ ihnext => exact .data hk hsize ht ihnext

end ItemTree

/-! ## Paths -/

/-- The decoder stores a variable for an item, unless it is one of floats without an element. -/
def SecsType.Stored (t : SecsType) (size : ℕ) : Prop :=
  size ≠ 0 ∨ t ≠ .elements .float4 ∧ t ≠ .elements .float8

instance (t : SecsType) (size : ℕ) : Decidable (t.Stored size) :=
  inferInstanceAs (Decidable (_ ∨ _))

namespace ItemTree

/-- The paths of the items from position `i` of the list at `path` on, in document order. -/
def paths (path : List ℕ) : ℕ → ItemTree → List (List ℕ)
  | _, .done => []
  | i, .list kids next => (path ++ [i]) :: kids.paths (path ++ [i]) 1 ++ next.paths path (i + 1)
  | i, .data _ _ next => (path ++ [i]) :: next.paths path (i + 1)

/-- The paths of the items that a variable is stored for. -/
def storedPaths (path : List ℕ) : ℕ → ItemTree → List (List ℕ)
  | _, .done => []
  | i, .list kids next =>
      (path ++ [i]) :: kids.storedPaths (path ++ [i]) 1 ++ next.storedPaths path (i + 1)
  | i, .data t bytes next =>
      (if t.Stored bytes.length then [path ++ [i]] else []) ++ next.storedPaths path (i + 1)

/-- All the items have a variable. -/
def AllStored : ItemTree → Prop
  | .done => True
  | .list kids next => kids.AllStored ∧ next.AllStored
  | .data t bytes next => t.Stored bytes.length ∧ next.AllStored

theorem storedPaths_of_all {f : ItemTree} (h : f.AllStored) (path : List ℕ) (i : ℕ) :
    f.storedPaths path i = f.paths path i := by
  induction f generalizing path i with
  | done => rfl
  | list kids next ihkids ihnext => rw [storedPaths, paths, ihkids h.1, ihnext h.2]
  | data t bytes next ih =>
      rw [storedPaths, paths, if_pos h.1, ih h.2]
      rfl

/-- An item without a variable is missing. -/
theorem length_storedPaths (f : ItemTree) (path : List ℕ) (i : ℕ) :
    (f.storedPaths path i).length ≤ (f.paths path i).length ∧
      ((f.storedPaths path i).length = (f.paths path i).length → f.AllStored) := by
  induction f generalizing path i with
  | done => exact ⟨le_rfl, fun _ => trivial⟩
  | list kids next ihkids ihnext =>
      obtain ⟨hkids, hallKids⟩ := ihkids (path ++ [i]) 1
      obtain ⟨hnext, hallNext⟩ := ihnext path (i + 1)
      simp only [storedPaths, paths, List.length_cons, List.length_append]
      exact ⟨by omega, fun heq => ⟨hallKids (by omega), hallNext (by omega)⟩⟩
  | data t bytes next ih =>
      obtain ⟨hnext, hallNext⟩ := ih path (i + 1)
      by_cases hstored : t.Stored bytes.length
      · simp only [storedPaths, paths, if_pos hstored, List.length_append, List.length_cons,
          List.length_nil]
        exact ⟨by omega, fun heq => ⟨hstored, hallNext (by omega)⟩⟩
      · simp only [storedPaths, paths, if_neg hstored, List.length_append, List.length_cons,
          List.length_nil]
        exact ⟨by omega, fun heq => by omega⟩

theorem storedPaths_eq_iff {f : ItemTree} {path : List ℕ} {i : ℕ} :
    f.storedPaths path i = f.paths path i ↔ f.AllStored := by
  constructor
  · intro h
    exact (length_storedPaths f path i).2 (congrArg _ h)
  · exact fun h => storedPaths_of_all h path i

theorem mem_paths {f : ItemTree} {path p : List ℕ} {i : ℕ} (h : p ∈ f.paths path i) :
    ∃ j rest, p = path ++ j :: rest ∧ i ≤ j := by
  induction f generalizing path i with
  | done => cases h
  | list kids next ihkids ihnext =>
      rcases List.mem_append.1 h with h | h
      · rcases List.mem_cons.1 h with rfl | h
        · exact ⟨i, [], rfl, le_rfl⟩
        · obtain ⟨j, rest, rfl, -⟩ := ihkids h
          exact ⟨i, j :: rest, by simp, le_rfl⟩
      · obtain ⟨j, rest, hp, hj⟩ := ihnext h
        exact ⟨j, rest, hp, (Nat.le_succ i).trans hj⟩
  | data t data next ih =>
      rcases List.mem_cons.1 h with rfl | h
      · exact ⟨i, [], rfl, le_rfl⟩
      · obtain ⟨j, rest, hp, hj⟩ := ih h
        exact ⟨j, rest, hp, (Nat.le_succ i).trans hj⟩

/-- The items after position `i` are not on a path that starts with `i`. -/
theorem paths_after {f : ItemTree} {path rest : List ℕ} {i : ℕ} :
    path ++ i :: rest ∉ f.paths path (i + 1) := by
  intro h
  obtain ⟨j, rest', hp, hj⟩ := mem_paths h
  have hcons := List.append_cancel_left hp
  rw [List.cons.injEq] at hcons
  omega

theorem paths_nodup (f : ItemTree) (path : List ℕ) (i : ℕ) : (f.paths path i).Nodup := by
  induction f generalizing path i with
  | done => exact List.nodup_nil
  | list kids next ihkids ihnext =>
      have hhead : path ++ [i] ∉ kids.paths (path ++ [i]) 1 := by
        intro h
        obtain ⟨j, rest, hp, -⟩ := mem_paths h
        have hlength := congrArg List.length hp
        simp at hlength
      refine List.nodup_append.2 ⟨List.nodup_cons.2 ⟨hhead, ihkids _ _⟩, ihnext _ _, ?_⟩
      rintro p hp q hq rfl
      rcases List.mem_cons.1 hp with rfl | hp
      · exact paths_after hq
      · obtain ⟨j, rest, rfl, -⟩ := mem_paths hp
        rw [List.append_assoc] at hq
        exact paths_after hq
  | data t data next ih => exact List.nodup_cons.2 ⟨paths_after, ih _ _⟩

end ItemTree

def pathName (varPrefix : Bytes) (path : List ℕ) : Bytes :=
  varPrefix ++ path.flatMap fun i => cstr "." ++ decimal i

theorem pathName_concat (varPrefix : Bytes) (path : List ℕ) (i : ℕ) :
    pathName varPrefix (path ++ [i]) = positionName (pathName varPrefix path) i := by
  have htext : intText (i : ℤ) = decimal i := by rw [intText, if_neg (by omega), Int.natAbs_natCast]
  simp only [pathName, positionName, htext, List.flatMap_append, List.flatMap_cons,
    List.flatMap_nil, List.append_nil, List.append_assoc]

/-- The number in front of the next dot. -/
theorem takeWhile_decimal (i : ℕ) (path : List ℕ) :
    ((decimal i ++ path.flatMap fun i => cstr "." ++ decimal i).takeWhile
      fun c => c ≠ chr '.') = decimal i := by
  have hdigits : ∀ c ∈ decimal i, decide (c ≠ chr '.') = true := by
    intro c hc
    have hdigit := isDigit_of_mem_decimal hc
    rw [decide_eq_true_iff]
    rintro rfl
    exact absurd hdigit (by decide)
  rw [List.takeWhile_append_of_pos hdigits]
  cases path with
  | nil => exact List.append_nil _
  | cons j path => exact List.append_nil _

theorem pathName_injective (varPrefix : Bytes) : Function.Injective (pathName varPrefix) := by
  intro path path' h
  have htail := List.append_cancel_left h
  clear h
  induction path generalizing path' with
  | nil =>
      cases path' with
      | nil => rfl
      | cons j path' => cases htail
  | cons i path ih =>
      cases path' with
      | nil => cases htail
      | cons j path' =>
          simp only [List.flatMap_cons, List.append_assoc] at htail
          have hrest := List.append_cancel_left htail
          have hnumber := congrArg (List.takeWhile fun c => decide (c ≠ chr '.')) hrest
          rw [takeWhile_decimal, takeWhile_decimal] at hnumber
          obtain rfl := decimal_injective hnumber
          rw [ih (List.append_cancel_left hrest)]

/-- The positions in the open lists, from the outermost one in. -/
def framesPath (frames : List Frame) : List ℕ := (frames.map Frame.ie).reverse

theorem length_framesPath (frames : List Frame) : (framesPath frames).length = frames.length := by
  rw [framesPath, List.length_reverse, List.length_map]

theorem framesPath_cons (f : Frame) (fs : List Frame) :
    framesPath (f :: fs) = framesPath fs ++ [f.ie] := by
  rw [framesPath, List.map_cons, List.reverse_cons, framesPath]

theorem itemName_eq_pathName (varPrefix : Bytes) (frames : List Frame) :
    itemName varPrefix frames = pathName varPrefix (framesPath frames) := by
  induction frames with
  | nil => rfl
  | cons f fs ih => rw [itemName_cons, ih, framesPath_cons, pathName_concat]

/-! ## The names that are stored -/

/-- The names that have no index behind the prefix, in the order in which they are stored. -/
def baseNames (varPrefix : Bytes) (vars : List TmpVariable) : List Bytes :=
  (vars.map Prod.fst).filter fun name => chr '[' ∉ name.drop varPrefix.length

theorem baseNames_append (varPrefix : Bytes) (vars vars' : List TmpVariable) :
    baseNames varPrefix (vars ++ vars') = baseNames varPrefix vars ++ baseNames varPrefix vars' := by
  rw [baseNames, List.map_append, List.filter_append, baseNames, baseNames]

theorem bracket_notMem_path (varPrefix : Bytes) (path : List ℕ) :
    chr '[' ∉ (pathName varPrefix path).drop varPrefix.length := by
  rw [pathName, List.drop_left]
  intro hmem
  obtain ⟨i, -, hmem⟩ := List.mem_flatMap.1 hmem
  rcases List.mem_append.1 hmem with hmem | hmem
  · exact absurd hmem (by decide)
  · exact absurd (isDigit_of_mem_decimal hmem) (by decide)

theorem baseNames_base (varPrefix : Bytes) (path : List ℕ) (value : Bytes)
    (vars : List TmpVariable) :
    baseNames varPrefix ((pathName varPrefix path, value) :: vars) =
      pathName varPrefix path :: baseNames varPrefix vars := by
  rw [baseNames, List.map_cons,
    List.filter_cons_of_pos (by simpa using bracket_notMem_path varPrefix path), baseNames]

theorem baseNames_indexed (varPrefix : Bytes) (path : List ℕ) {part : Bytes}
    (hpart : chr '[' ∈ part) (value : Bytes) (vars : List TmpVariable) :
    baseNames varPrefix ((pathName varPrefix path ++ part, value) :: vars) =
      baseNames varPrefix vars := by
  have hindex : chr '[' ∈ (pathName varPrefix path ++ part).drop varPrefix.length := by
    rw [pathName, List.append_assoc, List.drop_left]
    exact List.mem_append_right _ hpart
  rw [baseNames, List.map_cons, List.filter_cons_of_neg (by simpa using hindex), baseNames]

theorem baseNames_elementVars (k : ElementKind) (varPrefix : Bytes) (path : List ℕ) (array : Bool)
    (n i : ℕ) (p : Bytes) :
    baseNames varPrefix (elementVars k (pathName varPrefix path) array n i p) =
      if array then [] else List.replicate n (pathName varPrefix path) := by
  induction n generalizing i p with
  | zero => cases array <;> rfl
  | succ n ih =>
      rw [elementVars]
      cases array with
      | true =>
          have hpart : chr '[' ∈ myItoaFmt1 (i + 1) := List.mem_cons_self
          rw [elementName, if_pos rfl, baseNames_indexed _ _ hpart, ih, if_pos rfl, if_pos rfl]
      | false =>
          rw [elementName, if_neg Bool.false_ne_true, baseNames_base, ih]
          rfl

/-- The variables of an item have its name once, or not at all. -/
theorem baseNames_itemVars (fl : FloatText) (varPrefix : Bytes) (path : List ℕ) {t : SecsType}
    {size : ℕ} (ht : t = .list ∨ t.HoldsData size) (body : Bytes) :
    baseNames varPrefix (itemVars fl t (pathName varPrefix path) size body) =
      if t.Stored size then [pathName varPrefix path] else [] := by
  have hsingle : ∀ value, baseNames varPrefix [(pathName varPrefix path, value)] =
      [pathName varPrefix path] := fun value => baseNames_base varPrefix path value []
  cases t with
  | list =>
      rw [if_pos (.inr ⟨by decide, by decide⟩)]
      exact hsingle _
  | ascii =>
      rw [if_pos (.inr ⟨by decide, by decide⟩)]
      exact hsingle _
  | elements t =>
      have hdvd : t.width ∣ size := ht.resolve_left (by simp)
      have hempty : baseNames varPrefix (if size = 0 ∧ (t.kind fl).emptyVariable then
          [(pathName varPrefix path, [])] else []) =
            if size = 0 ∧ (t.kind fl).emptyVariable then [pathName varPrefix path] else [] := by
        split
        · exact hsingle []
        · rfl
      have hwhole : baseNames varPrefix (if (t.kind fl).wholeVariable ∧ (t.kind fl).isArray size then
          [(pathName varPrefix path ++ cstr "[]", (body.take size).flatMap myBtoh)] else []) = [] := by
        split
        · exact baseNames_indexed varPrefix path (by decide) _ []
        · rfl
      have hlength : baseNames varPrefix (if (t.kind fl).isArray size then
          [(pathName varPrefix path, cstr "ARRAY"),
            (pathName varPrefix path ++ cstr "[0]", myItoa (size / t.width : ℕ))] else []) =
          if (t.kind fl).isArray size then [pathName varPrefix path] else [] := by
        split
        · rw [baseNames_base, baseNames_indexed varPrefix path (by decide)]
          rfl
        · rfl
      have hmany := @kind_isArray fl t size
      have hnone := @kind_isArray_zero fl t size
      rw [itemVars, elementItemVars, baseNames_append, baseNames_append, baseNames_append,
        t.kind_width fl, hempty, baseNames_elementVars, hwhole, hlength, List.append_nil]
      by_cases hzero : size = 0
      · subst hzero
        rw [Nat.zero_div] at hnone ⊢
        rw [hnone rfl, kind_emptyVariable]
        simp [SecsType.Stored]
      · have hpos := Nat.div_pos (Nat.le_of_dvd (Nat.pos_of_ne_zero hzero) hdvd) t.width_pos
        rw [if_neg fun h => hzero h.1, if_pos (show (SecsType.elements t).Stored size from .inl hzero),
          List.nil_append]
        cases harray : (t.kind fl).isArray size with
        | true => rfl
        | false =>
            have hfew : ¬ 1 < size / t.width := fun h => by
              rw [hmany h] at harray
              cases harray
            have hone : size / t.width = 1 := by omega
            rw [hone]
            rfl

/-! ## The lines of the log -/

inductive LogEvent where
  | item (path : List ℕ) (t : SecsType) (size : ℕ) (data : Bytes)
  | close (path : List ℕ)

def ItemTree.outline (path : List ℕ) : ℕ → ItemTree → List LogEvent
  | _, .done => []
  | i, .list kids next =>
      .item (path ++ [i]) .list kids.count [] :: kids.outline (path ++ [i]) 1 ++
        (if kids.count = 0 then [] else [.close (path ++ [i])]) ++ next.outline path (i + 1)
  | i, .data t bytes next =>
      .item (path ++ [i]) t bytes.length bytes :: next.outline path (i + 1)

def pathColumn (path : List ℕ) : ℕ := path.length * 3 + 30

def itemText (fl : FloatText) (t : SecsType) (size : ℕ) (data : Bytes) : Bytes :=
  match t with
  | .list => cstr "<L " ++ myItoa size ++ (if size = 0 then cstr ">\n" else cstr "\n")
  | .ascii => cstr "<A \"" ++ data ++ cstr "\">\n"
  | .elements t =>
      (t.kind fl).tag ++ (elementTexts (t.kind fl) (size / (t.kind fl).width) data).flatten ++
        cstr ">\n"

def LogEvent.Line (fl : FloatText) (varPrefix : Bytes) : LogEvent → Bytes → Prop
  | .item path t size data, line =>
      ∃ pad margin,
        padText (writePad pad (pathColumn path) (pathName varPrefix path)) = .ok margin ∧
        line = margin ++ itemText fl t size data
  | .close path, line => line = List.replicate (pathColumn path) (chr ' ') ++ cstr ">\n"

inductive Lines (fl : FloatText) (varPrefix : Bytes) : List LogEvent → Bytes → Prop where
  | nil : Lines fl varPrefix [] []
  | cons {e : LogEvent} {es : List LogEvent} {line text : Bytes} (hline : e.Line fl varPrefix line)
      (htext : Lines fl varPrefix es text) : Lines fl varPrefix (e :: es) (line ++ text)

theorem Lines.append {fl : FloatText} {varPrefix : Bytes} {es es' : List LogEvent}
    {text text' : Bytes} (h : Lines fl varPrefix es text) (h' : Lines fl varPrefix es' text') :
    Lines fl varPrefix (es ++ es') (text ++ text') := by
  induction h with
  | nil => exact h'
  | cons hline _ ih =>
      rw [List.append_assoc]
      exact .cons hline ih

/-! ## One turn -/

def closes : List Frame → List LogEvent
  | [] => []
  | f :: fs => if f.e = 0 then .close (framesPath fs) :: closes fs else []

theorem closeLists_lines {frames : List Frame} {st st' : DecodeState} (fl : FloatText)
    (varPrefix : Bytes) (h : closeLists frames st = .ok st') :
    closed frames ≠ [] ∧
      ∃ text, st'.log = st.log ++ text ∧ Lines fl varPrefix (closes frames) text := by
  induction frames generalizing st with
  | nil => cases h
  | cons f fs ih =>
      rw [closeLists] at h
      split at h
      · rename_i hzero
        split at h
        · rename_i hcolumn
          obtain ⟨text, htext, hrun⟩ := bind_ok_iff.1 h
          rw [padText_clearPad hcolumn] at htext
          cases htext
          obtain ⟨hopen, text, hlog, hlines⟩ := ih hrun
          rw [closed_of_eq _ hzero, closes, if_pos hzero]
          refine ⟨hopen, List.replicate (padColumn fs) (chr ' ') ++ cstr ">\n" ++ text, ?_,
            .cons ?_ hlines⟩
          · simp only [hlog, List.append_assoc]
          · rw [LogEvent.Line, pathColumn, length_framesPath, padColumn]
        · cases h
      · rename_i hne
        cases h
        rw [closed_of_ne _ hne, closes, if_neg hne]
        exact ⟨List.cons_ne_nil _ _, [], (List.append_nil _).symm, .nil⟩

/-- A turn's lines in the log: the item, and the ends of the lists that it completes. -/
theorem decodeBranch_lines {fl : FloatText} {baseName : Bytes} {frames : List Frame} {size : ℕ}
    {st st' : DecodeState} {t : SecsType} (varPrefix : Bytes)
    (h : decodeBranch fl baseName (entered frames) size st t = .ok st') :
    framesAfter t size frames ≠ [] ∧ ∃ margin text, padText st.pad = .ok margin ∧
      st'.log = st.log ++
        (margin ++ itemText fl t size (st.cursor.rest.take (t.ownBytes size)) ++ text) ∧
      Lines fl varPrefix (closes (opened t size frames)) text := by
  cases t with
  | list =>
      simp only [decodeBranch, bind_ok_iff] at h
      obtain ⟨margin, hmargin, h⟩ := h
      split at h
      · cases h
      · have hopened : (if size = 0 then entered frames else ⟨size, 0⟩ :: entered frames) =
            opened .list size frames := by
          by_cases hzero : size = 0 <;> simp [opened, hzero]
        rw [hopened] at h
        obtain ⟨hopen, text, hlog, hlines⟩ := closeLists_lines fl varPrefix h
        refine ⟨hopen, margin, text, hmargin, ?_, hlines⟩
        have htag : cstr "<L " = cstr "<L" ++ cstr " " := rfl
        simp only [hlog, itemText, htag, List.append_assoc]
  | ascii =>
      simp only [decodeBranch, bind_ok_iff, Prod.exists] at h
      obtain ⟨margin, hmargin, p, cursor, hread, h⟩ := h
      obtain ⟨-, rfl, -⟩ := Cursor.read_inv hread
      obtain ⟨hopen, text, hlog, hlines⟩ := closeLists_lines fl varPrefix h
      rw [framesAfter, opened_elements _ _ _ (by decide)]
      refine ⟨hopen, margin, text, hmargin, ?_, hlines⟩
      simp only [hlog, itemText, SecsType.ownBytes, List.append_assoc]
  | elements t =>
      simp only [decodeBranch, decodeElementItem, bind_ok_iff] at h
      obtain ⟨st₃, ⟨margin, hmargin, st₁, hrun, st₂, hwhole, hret⟩, st₄, harray, hclose⟩ := h
      cases hret
      obtain ⟨hopen, text, hlog, hlines⟩ := closeLists_lines fl varPrefix hclose
      have harray := addArrayVariables_log harray
      have hwhole := addWholeVariable_log hwhole
      have helements := decodeElements_log hrun
      simp only at harray hwhole helements
      rw [framesAfter, opened_elements _ _ _ (by simp)]
      refine ⟨hopen, margin, text, hmargin, ?_, hlines⟩
      have htexts : elementTexts (t.kind fl) (size / (t.kind fl).width)
          (st.cursor.rest.take ((SecsType.elements t).ownBytes size)) =
            elementTexts (t.kind fl) (size / (t.kind fl).width) st.cursor.rest := by
        apply elementTexts_take
        rw [SecsType.ownBytes, t.kind_width fl]
      simp only [hlog, harray, hwhole, helements, itemText, htexts, List.append_assoc]

/-! ## The turns of a run -/

section

variable (fl : FloatText) (varPrefix : Bytes)

def turnStates (st : DecodeState) : List DecodeState :=
  if st.cursor.length = 0 then []
  else
    match _h : decodeTurn fl varPrefix st with
    | .ok (.next st') => st :: turnStates st'
    | _ => [st]
termination_by st.cursor.rest.length
decreasing_by exact decodeTurn_shrinks _h

theorem turnStates_finished {st : DecodeState} (h : st.cursor.length = 0) :
    turnStates fl varPrefix st = [] := by
  rw [turnStates, if_pos h]

theorem turnStates_next {st st' : DecodeState} (h : st.cursor.length ≠ 0)
    (hturn : decodeTurn fl varPrefix st = .ok (.next st')) :
    turnStates fl varPrefix st = st :: turnStates fl varPrefix st' := by
  conv_lhs => rw [turnStates, if_neg h]
  split
  · rename_i heq
    rw [hturn] at heq
    cases heq
    rfl
  · rename_i hne
    exact (hne st' hturn).elim

def CountsDown (st : DecodeState) : Prop :=
  ∀ top below, st.frames = top :: below → below ≠ [] → 0 < top.e

structure Continues (r : ℕ × DecodeState) (st : DecodeState) (rest : Bytes) : Prop where
  run : decodeLoop fl varPrefix st = .ok r
  cursor : st.cursor = cursorAt rest
  fits : rest.length < 2 ^ 32
  bottom : BottomOpen rest.length st.frames

structure Stretch (st st' : DecodeState) (paths : List (List ℕ)) (events : List LogEvent) :
    Prop where
  turns : ∃ states, turnStates fl varPrefix st = states ++ turnStates fl varPrefix st' ∧
    ∀ s ∈ states, CountsDown s
  vars : ∃ added, st'.vars = st.vars ++ added ∧
    baseNames varPrefix added = paths.map (pathName varPrefix)
  log : ∃ text, st'.log = st.log ++ text ∧ Lines fl varPrefix events text

variable {fl varPrefix} {r : ℕ × DecodeState} {st st' st'' : DecodeState}

theorem Stretch.refl (st : DecodeState) : Stretch fl varPrefix st st [] [] :=
  ⟨⟨[], rfl, fun _ h => by cases h⟩, ⟨[], (List.append_nil _).symm, rfl⟩,
    [], (List.append_nil _).symm, .nil⟩

theorem Stretch.congr {paths paths' : List (List ℕ)} {events events' : List LogEvent}
    (h : Stretch fl varPrefix st st' paths events) (hpaths : paths = paths')
    (hevents : events = events') : Stretch fl varPrefix st st' paths' events' := by
  rwa [← hpaths, ← hevents]

theorem Stretch.trans {paths paths' : List (List ℕ)} {events events' : List LogEvent}
    (h : Stretch fl varPrefix st st' paths events)
    (h' : Stretch fl varPrefix st' st'' paths' events') :
    Stretch fl varPrefix st st'' (paths ++ paths') (events ++ events') := by
  obtain ⟨⟨states, hstates, hcounts⟩, ⟨added, hadded, hnames⟩, text, hlog, hlines⟩ := h
  obtain ⟨⟨states', hstates', hcounts'⟩, ⟨added', hadded', hnames'⟩, text', hlog', hlines'⟩ := h'
  refine ⟨⟨states ++ states', ?_, ?_⟩, ⟨added ++ added', ?_, ?_⟩, text ++ text', ?_,
    hlines.append hlines'⟩
  · rw [hstates, hstates', List.append_assoc]
  · intro s hs
    exact (List.mem_append.1 hs).elim (hcounts s) (hcounts' s)
  · rw [hadded', hadded, List.append_assoc]
  · rw [baseNames_append, List.map_append, hnames, hnames']
  · rw [hlog', hlog, List.append_assoc]

theorem Continues.turn {rest body : Bytes} {hd : Header} {t : SecsType} {top : Frame}
    {below : List Frame} (hc : Continues fl varPrefix r st rest)
    (hh : takeHeader rest = some (hd, body)) (ht : secsType? hd.code = some t)
    (hholds : t = .list ∨ t.HoldsData hd.size) (hframes : st.frames = top :: below)
    (hcount : below ≠ [] → 0 < top.e) :
    ∃ st', Continues fl varPrefix r st' (body.drop (t.ownBytes hd.size)) ∧
      st'.frames = framesAfter t hd.size (top :: below) ∧
      Stretch fl varPrefix st st'
        (if t.Stored hd.size then [framesPath below ++ [top.ie + 1]] else [])
        (.item (framesPath below ++ [top.ie + 1]) t hd.size (body.take (t.ownBytes hd.size)) ::
          closes (opened t hd.size (top :: below))) := by
  obtain ⟨hrun, hcursor, hlen, hbottom⟩ := hc
  have hbody : body.length < rest.length := takeHeader_length hh
  have hlength : st.cursor.length ≠ 0 := by
    rw [hcursor, cursorAt]
    exact Nat.ne_of_gt (Nat.zero_lt_of_lt hbody)
  have hname : nextName varPrefix st.frames =
      pathName varPrefix (framesPath below ++ [top.ie + 1]) := by
    rw [hframes, nextName_eq, itemName_eq_pathName, pathName_concat]
  rw [decodeLoop_eq, if_neg hlength] at hrun
  cases hturn : decodeTurn fl varPrefix st with
  | error fault => simp [hturn] at hrun
  | ok r' =>
      obtain ⟨hd', body', hbody', hfits, hr⟩ := fits_of_decodeTurn fl varPrefix hcursor hturn
      rw [hh] at hbody'
      cases hbody'
      rw [ht] at hr
      cases r' with
      | unknown st' => exact hr.elim
      | next st' =>
          have hown : t.ownBytes hd.size ≤ body.length := hr
          have hdrop : (body.drop (t.ownBytes hd.size)).length < rest.length := by
            rw [List.length_drop]
            omega
          have hbottom' := hbottom.framesAfter hdrop t hd.size
          obtain ⟨log, hok⟩ := decodeTurn_ok fl varPrefix hlen hcursor hh ht hown hfits
            hbottom'.ne_nil hbottom.ne_nil
          have hbranch := hturn
          rw [decodeTurn_eq fl varPrefix hlen hcursor hbottom.ne_nil hh hfits.name hfits.column,
            ht] at hbranch
          obtain ⟨st₁, hbranch, hret⟩ := bind_ok_iff.1 hbranch
          cases hret
          obtain ⟨-, margin, text, hmargin, hlog, hlines⟩ := decodeBranch_lines varPrefix hbranch
          have hstates := turnStates_next fl varPrefix hlength hturn
          have hrest := hok
          rw [hturn] at hrest
          cases hrest
          refine ⟨_, ⟨?_, rfl, hdrop.trans hlen, hbottom'⟩, ?_, ⟨?_, ⟨_, rfl, ?_⟩, _, hlog, ?_⟩⟩
          · rw [hturn] at hrun
            exact hrun
          · rw [hframes]
          · refine ⟨[st], hstates, ?_⟩
            intro s hs
            rw [List.mem_singleton.1 hs]
            intro top' below' hframes' hne
            rw [hframes] at hframes'
            cases hframes'
            exact hcount hne
          · rw [hname, baseNames_itemVars fl varPrefix _ hholds]
            split <;> rfl
          · rw [hframes] at hlines
            refine .cons ⟨st.pad, margin, ?_, rfl⟩ hlines
            rw [← hmargin, pathColumn, hname, hframes, padColumn, List.length_append,
              length_framesPath]
            rfl

/-! ## The turns over a tree -/

def closesPast (n : ℕ) (top : Frame) (below : List Frame) : List LogEvent :=
  if n = 0 then [] else closes (⟨sub32 top.e n, top.ie + n⟩ :: below)

theorem closes_of_ne {f : Frame} (fs : List Frame) (h : f.e ≠ 0) : closes (f :: fs) = [] :=
  if_neg h

theorem closesPast_succ (n : ℕ) (top : Frame) (below : List Frame) :
    closesPast (n + 1) top below =
      if n = 0 then closes (⟨sub32 top.e 1, top.ie + 1⟩ :: below)
      else closesPast n ⟨sub32 top.e 1, top.ie + 1⟩ below := by
  rw [closesPast, if_neg (Nat.succ_ne_zero n)]
  split
  · rename_i hn
    rw [hn]
  · rename_i hn
    rw [closesPast, if_neg hn, sub32_sub32, Nat.add_comm n 1, Nat.add_assoc]

/-- A list's own end comes before those of the lists around it. -/
theorem closesPast_list {size : ℕ} (hpos : size ≠ 0) (hlt : size < 2 ^ 32) (fs : List Frame) :
    closesPast size ⟨size, 0⟩ fs = .close (framesPath fs) :: closes fs := by
  have hzero : sub32 size size = 0 := by
    rw [sub32_of_le le_rfl hlt, Nat.sub_self]
  rw [closesPast, if_neg hpos, closes, if_pos hzero]

theorem ItemTree.eq_done_of_count {f : ItemTree} (h : f.count = 0) : f = .done := by
  cases f with
  | done => rfl
  | list kids next => simp [ItemTree.count] at h
  | data t bytes next => simp [ItemTree.count] at h

theorem ItemTree.Encodes.nil {bs : Bytes} (h : ItemTree.done.Encodes bs) : bs = [] := by
  cases h
  rfl

structure Expects (n : ℕ) (top : Frame) (below : List Frame) : Prop where
  counter : below ≠ [] → n ≤ top.e ∧ top.e < 2 ^ 32
  open_ : ∀ i, 0 < i → i < n → sub32 top.e i ≠ 0

theorem Expects.next {n : ℕ} {top : Frame} {below : List Frame} (h : Expects (n + 1) top below) :
    Expects n ⟨sub32 top.e 1, top.ie + 1⟩ below where
  counter hne := by
    obtain ⟨hle, hlt⟩ := h.counter hne
    have hless : sub32 top.e 1 = top.e - 1 := sub32_of_le (by omega) hlt
    simp only [hless]
    omega
  open_ i hi hlt := by
    rw [sub32_sub32]
    exact h.open_ (1 + i) (by omega) (by omega)

theorem Expects.list {size : ℕ} (hlt : size < 2 ^ 32) (below : List Frame) :
    Expects size ⟨size, 0⟩ below :=
  ⟨fun _ => ⟨le_rfl, hlt⟩, fun i _ hi => list_stays_open hlt i hi⟩

def Goes (fl : FloatText) (varPrefix : Bytes) (r : ℕ × DecodeState) (f : ItemTree)
    (bs tail : Bytes) (below : List Frame) : Prop :=
  ∀ st top, Continues fl varPrefix r st (bs ++ tail) → st.frames = top :: below →
    Expects f.count top below →
    ∃ st', Continues fl varPrefix r st' tail ∧ st'.frames = framesPast f.count top below ∧
      Stretch fl varPrefix st st' (f.storedPaths (framesPath below) (top.ie + 1))
        (f.outline (framesPath below) (top.ie + 1) ++ closesPast f.count top below)

/-- The items that follow one on its level, when its turn has completed what it completes. -/
theorem goes_next {next : ItemTree} {bs tail : Bytes} {top : Frame} {below : List Frame}
    (hnext : next.Encodes bs) (ih : Goes fl varPrefix r next bs tail below)
    (hc : Continues fl varPrefix r st (bs ++ tail))
    (hframes : st.frames = closed (⟨sub32 top.e 1, top.ie + 1⟩ :: below))
    (hexpects : Expects (next.count + 1) top below) :
    ∃ st' events, Continues fl varPrefix r st' tail ∧
      st'.frames = framesPast (next.count + 1) top below ∧
      Stretch fl varPrefix st st' (next.storedPaths (framesPath below) (top.ie + 1 + 1)) events ∧
      closes (⟨sub32 top.e 1, top.ie + 1⟩ :: below) ++ events =
        next.outline (framesPath below) (top.ie + 1 + 1) ++
          closesPast (next.count + 1) top below := by
  rw [framesPast_succ, closesPast_succ]
  by_cases hzero : next.count = 0
  · obtain rfl := ItemTree.eq_done_of_count hzero
    obtain rfl := hnext.nil
    rw [if_pos hzero, if_pos hzero]
    refine ⟨st, [], hc, hframes, .refl st, ?_⟩
    rw [List.append_nil, ItemTree.outline, List.nil_append]
  · have hne : (⟨sub32 top.e 1, top.ie + 1⟩ : Frame).e ≠ 0 :=
      hexpects.open_ 1 one_pos (by omega)
    rw [if_neg hzero, if_neg hzero, closes_of_ne _ hne]
    rw [closed_of_ne _ hne] at hframes
    obtain ⟨st', hc', hframes', hstretch⟩ := ih st _ hc hframes hexpects.next
    exact ⟨st', _, hc', hframes', hstretch, rfl⟩

/-- A list's end stands between its items and what follows it. -/
theorem events_of_list {kids closing events next past : List LogEvent} (item end_ : LogEvent)
    (h : closing ++ events = next ++ past) :
    [item] ++ (kids ++ end_ :: closing) ++ events = item :: kids ++ [end_] ++ next ++ past := by
  simp only [List.append_assoc, List.cons_append, List.nil_append, h]

theorem holdsData_ownBytes {t : SecsType} {n : ℕ} (h : t.HoldsData n) : t.ownBytes n = n := by
  cases t with
  | list => exact h.elim
  | ascii => rfl
  | elements t => exact Nat.mul_div_cancel' h

theorem holdsData_ne_list {t : SecsType} {n : ℕ} (h : t.HoldsData n) : t ≠ .list := by
  rintro rfl
  exact h.elim

theorem goes_tree {f : ItemTree} {bs : Bytes} (hf : f.Encodes bs) (tail : Bytes)
    (below : List Frame) : Goes fl varPrefix r f bs tail below := by
  induction hf generalizing tail below with
  | done => exact fun st top hc hframes _ => ⟨st, hc, hframes, .refl st⟩
  | @list k kids next kidBytes nextBytes hk hsize hkids hnext ihkids ihnext =>
      intro st top hc hframes hexpects
      have hlt : kids.count < 2 ^ 32 := hsize.trans_le <| by
        simp only [List.mem_cons, List.not_mem_nil, or_false] at hk
        rcases hk with rfl | rfl | rfl <;> decide
      have hcount : below ≠ [] → 0 < top.e := fun hne =>
        lt_of_lt_of_le (Nat.succ_pos _) (hexpects.counter hne).1
      rw [List.append_assoc, List.append_assoc] at hc
      have hheader := takeHeader_headerBytes (t := .list) hk hsize (kidBytes ++ (nextBytes ++ tail))
      obtain ⟨st₁, hc₁, hframes₁, hturn⟩ := hc.turn hheader (secsType?_code .list) (.inl rfl) hframes hcount
      simp only [SecsType.ownBytes, List.drop_zero, List.take_zero] at hc₁ hframes₁ hturn
      simp only [ItemTree.storedPaths, ItemTree.outline, ItemTree.count]
      by_cases hzero : kids.count = 0
      · obtain rfl := ItemTree.eq_done_of_count hzero
        obtain rfl := hkids.nil
        rw [List.nil_append] at hc₁
        rw [framesAfter_of_not_list fun h => h.2 hzero] at hframes₁
        obtain ⟨st₂, events, hc₂, hframes₂, hrest, hevents⟩ :=
          goes_next hnext (ihnext tail below) hc₁ hframes₁ hexpects
        refine ⟨st₂, hc₂, hframes₂, ?_⟩
        have hopened : opened .list 0 (top :: below) = ⟨sub32 top.e 1, top.ie + 1⟩ :: below :=
          if_neg fun h => h.2 rfl
        refine (hturn.trans hrest).congr rfl ?_
        rw [ItemTree.count, hopened, List.cons_append, hevents, if_pos rfl, ItemTree.outline]
        rfl
      · rw [framesAfter_list hzero] at hframes₁
        have hopened : opened .list kids.count (top :: below) =
            ⟨kids.count, 0⟩ :: ⟨sub32 top.e 1, top.ie + 1⟩ :: below := if_pos ⟨rfl, hzero⟩
        obtain ⟨st₂, hc₂, hframes₂, hinner⟩ := ihkids (nextBytes ++ tail)
          (⟨sub32 top.e 1, top.ie + 1⟩ :: below) st₁ _ hc₁ hframes₁ (.list hlt _)
        rw [framesPast_list hzero hlt] at hframes₂
        obtain ⟨st₃, events, hc₃, hframes₃, hrest, hevents⟩ :=
          goes_next hnext (ihnext tail below) hc₂ hframes₂ hexpects
        refine ⟨st₃, hc₃, hframes₃, ?_⟩
        refine ((hturn.trans hinner).trans hrest).congr ?_ ?_
        · rw [if_pos (show SecsType.list.Stored kids.count from .inl hzero), framesPath_cons,
            List.append_assoc, List.cons_append, List.nil_append, List.cons_append]
        · rw [hopened, closes_of_ne _ hzero, closesPast_list hzero hlt, framesPath_cons,
            if_neg hzero]
          exact events_of_list _ _ hevents
  | @data k t bytes next nextBytes hk hsize ht hnext ih =>
      intro st top hc hframes hexpects
      have hcount : below ≠ [] → 0 < top.e := fun hne =>
        lt_of_lt_of_le (Nat.succ_pos _) (hexpects.counter hne).1
      rw [List.append_assoc, List.append_assoc] at hc
      have hheader := takeHeader_headerBytes (t := t) hk hsize (bytes ++ (nextBytes ++ tail))
      obtain ⟨st₁, hc₁, hframes₁, hturn⟩ := hc.turn hheader (secsType?_code t) (.inr ht) hframes hcount
      simp only [holdsData_ownBytes ht, List.drop_left, List.take_left] at hc₁ hturn
      have hlist : ¬ (t = .list ∧ bytes.length ≠ 0) := fun h => holdsData_ne_list ht h.1
      have hopened : opened t bytes.length (top :: below) =
          ⟨sub32 top.e 1, top.ie + 1⟩ :: below := if_neg hlist
      rw [framesAfter_of_not_list hlist] at hframes₁
      obtain ⟨st₂, events, hc₂, hframes₂, hrest, hevents⟩ :=
        goes_next hnext (ih tail below) hc₁ hframes₁ hexpects
      refine ⟨st₂, hc₂, hframes₂, ?_⟩
      refine (hturn.trans hrest).congr rfl ?_
      rw [hopened, List.cons_append, hevents, ItemTree.outline, ItemTree.count, List.cons_append]

end

/-! ## Whole messages -/

def ItemTree.nonEmptyLists : ItemTree → ℕ
  | .done => 0
  | .list kids next =>
      kids.nonEmptyLists + next.nonEmptyLists + if kids.count = 0 then 0 else 1
  | .data _ _ next => next.nonEmptyLists

def LogEvent.isClose : LogEvent → Bool
  | .item _ _ _ _ => false
  | .close _ => true

theorem ItemTree.countP_isClose (f : ItemTree) (path : List ℕ) (i : ℕ) :
    (f.outline path i).countP LogEvent.isClose = f.nonEmptyLists := by
  induction f generalizing path i with
  | done => rfl
  | list kids next ihkids ihnext =>
      have hend : (if kids.count = 0 then [] else [LogEvent.close (path ++ [i])]).countP
          LogEvent.isClose = if kids.count = 0 then 0 else 1 := by
        split <;> rfl
      simp only [ItemTree.outline, ItemTree.nonEmptyLists, List.countP_append, List.countP_cons,
        ihkids, ihnext, hend, LogEvent.isClose, Bool.false_eq_true, if_false]
      omega
  | data t bytes next ih =>
      simp only [ItemTree.outline, ItemTree.nonEmptyLists, List.countP_cons, ih, LogEvent.isClose,
        Bool.false_eq_true, if_false, Nat.add_zero]

def decodeStart (body : MessageBody) (log : Bytes) : DecodeState where
  cursor := ⟨body.bytes, body.bytes.length⟩
  frames := [⟨0, 0⟩]
  pad := List.replicate padSize none
  log := log
  vars := []

/-- The message is decoded. The base names of the variables are the paths of its items in document
order, no two of them the same; no counter of an open list goes below zero; and the log shows each
item once, and one closing line for each list with items. -/
def NamedByPaths (fl : FloatText) (varPrefix : Bytes) (body : MessageBody) (log : Bytes)
    (f : ItemTree) : Prop :=
  ∃ out text, secsDecode fl varPrefix body log = .ok (0, out) ∧
    baseNames varPrefix out.vars = (f.paths [] 1).map (pathName varPrefix) ∧
    (baseNames varPrefix out.vars).Nodup ∧
    (∀ st ∈ turnStates fl varPrefix (decodeStart body log), CountsDown st) ∧
    out.log = log ++ text ∧ Lines fl varPrefix (f.outline [] 1) text ∧
    (f.outline [] 1).countP LogEvent.isClose = f.nonEmptyLists

/-- The decoder stores the base names of the items that it has a variable for, and logs them all. -/
theorem secsDecode_paths (fl : FloatText) (varPrefix : Bytes) (body : MessageBody) (log : Bytes)
    {f : ItemTree} (hf : f.Encodes body.bytes) (hfits : FitsBuffers fl varPrefix body) :
    ∃ out text, secsDecode fl varPrefix body log = .ok (0, out) ∧
      baseNames varPrefix out.vars = (f.storedPaths [] 1).map (pathName varPrefix) ∧
      (∀ st ∈ turnStates fl varPrefix (decodeStart body log), CountsDown st) ∧
      out.log = log ++ text ∧ Lines fl varPrefix (f.outline [] 1) text := by
  have hwf : WellFormed body.bytes := ⟨f.count, hf.items⟩
  obtain ⟨out, hout⟩ := (secsDecode_status_iff fl varPrefix body log 0).2
    ⟨hfits, by rw [hwf.walk_finished]; rfl⟩
  have hcount : f.count < 2 ^ 32 := by
    have htwo := hf.items.two_mul_le
    have hlen := body.length_fits
    omega
  have hc : Continues fl varPrefix (0, out) (decodeStart body log) (body.bytes ++ []) := by
    rw [List.append_nil]
    exact ⟨hout, rfl, body.length_fits, bottomOpen_start body.length_fits⟩
  have hexpects : Expects f.count ⟨0, 0⟩ [] := by
    refine ⟨fun hne => (hne rfl).elim, fun i hi hlt => ?_⟩
    rw [sub32_zero_left hi (by omega)]
    omega
  obtain ⟨st, hc', hframes, hstretch⟩ := goes_tree hf [] [] _ ⟨0, 0⟩ hc rfl hexpects
  have hlength : st.cursor.length = 0 := by
    rw [hc'.cursor]
    rfl
  have hst : st = out := by
    have hrun := hc'.run
    rw [decodeLoop_eq, if_pos hlength] at hrun
    cases hrun
    rfl
  have hcloses : closesPast f.count ⟨0, 0⟩ [] = [] := by
    unfold closesPast
    split
    · rfl
    · rename_i hpos
      have hne : sub32 0 f.count ≠ 0 := by
        rw [sub32_zero_left (by omega) hcount]
        omega
      exact closes_of_ne _ hne
  subst hst
  obtain ⟨⟨states, hstates, hcounts⟩, ⟨added, hadded, hnames⟩, text, hlog, hlines⟩ := hstretch
  rw [turnStates_finished fl varPrefix hlength, List.append_nil] at hstates
  rw [hcloses, List.append_nil] at hlines
  refine ⟨st, text, hout, ?_, ?_, hlog, hlines⟩
  · rw [hadded]
    exact hnames
  · rw [hstates]
    exact hcounts

theorem namedByPaths_iff {fl : FloatText} {varPrefix : Bytes} {body : MessageBody} {log : Bytes}
    {f : ItemTree} (hf : f.Encodes body.bytes) (hfits : FitsBuffers fl varPrefix body) :
    NamedByPaths fl varPrefix body log f ↔ f.AllStored := by
  obtain ⟨out, text, hout, hnames, hcounts, hlog, hlines⟩ :=
    secsDecode_paths fl varPrefix body log hf hfits
  constructor
  · rintro ⟨out', -, hout', hpaths, -⟩
    rw [hout] at hout'
    cases hout'
    rw [hnames] at hpaths
    exact ItemTree.storedPaths_eq_iff.1
      (List.map_injective_iff.2 (pathName_injective varPrefix) hpaths)
  · intro hall
    rw [ItemTree.storedPaths_eq_iff.2 hall] at hnames
    refine ⟨out, text, hout, hnames, ?_, hcounts, hlog, hlines, f.countP_isClose [] 1⟩
    rw [hnames]
    exact List.Nodup.map (pathName_injective varPrefix) (f.paths_nodup [] 1)

/-- A well-formed message that fits the arrays is named by the paths of its items, exactly when none
of its items is one of floats without an element. -/
theorem base_names_are_paths_iff (fl : FloatText) (varPrefix : Bytes) (body : MessageBody)
    (log : Bytes) (f : ItemTree) (hf : f.Encodes body.bytes)
    (hfits : FitsBuffers fl varPrefix body) :
    NamedByPaths fl varPrefix body log f ↔ f.AllStored :=
  namedByPaths_iff hf hfits

def twoLists : ItemTree := .list (.list .done (.list (.data .ascii (cstr "!") .done) .done)) .done

def twoListsBody : MessageBody := ⟨[0x01, 2, 0x01, 0, 0x01, 1, 0x41, 1, 0x21], by decide⟩

theorem twoLists_encodes : twoLists.Encodes twoListsBody.bytes := by
  have htext : ItemTree.Encodes (.data .ascii (cstr "!") .done) [0x41, 1, 0x21] :=
    @ItemTree.Encodes.data 1 _ _ _ _ (by decide) (by decide) trivial .done
  have hinner : ItemTree.Encodes (.list (.data .ascii (cstr "!") .done) .done)
      [0x01, 1, 0x41, 1, 0x21] :=
    @ItemTree.Encodes.list 1 _ _ _ _ (by decide) (by decide) htext .done
  have hempty : ItemTree.Encodes (.list .done (.list (.data .ascii (cstr "!") .done) .done))
      [0x01, 0, 0x01, 1, 0x41, 1, 0x21] :=
    @ItemTree.Encodes.list 1 _ _ _ _ (by decide) (by decide) .done hinner
  exact @ItemTree.Encodes.list 1 _ _ _ _ (by decide) (by decide) hempty .done

theorem walk_twoLists : walk twoListsBody.bytes = ([⟨SecsType.list.code, 2⟩,
    ⟨SecsType.list.code, 0⟩, ⟨SecsType.list.code, 1⟩, ⟨SecsType.ascii.code, 1⟩], .finished) := by
  have h₁ : takeHeader twoListsBody.bytes =
      some (⟨SecsType.list.code, 2⟩, [0x01, 0, 0x01, 1, 0x41, 1, 0x21]) := rfl
  have h₂ : takeHeader [0x01, 0, 0x01, 1, 0x41, 1, 0x21] =
      some (⟨SecsType.list.code, 0⟩, [0x01, 1, 0x41, 1, 0x21]) := rfl
  have h₃ : takeHeader [0x01, 1, 0x41, 1, 0x21] =
      some (⟨SecsType.list.code, 1⟩, [0x41, 1, 0x21]) := rfl
  have h₄ : takeHeader [0x41, 1, 0x21] = some (⟨SecsType.ascii.code, 1⟩, [0x21]) := rfl
  rw [walk_some h₁]
  simp [secsType?_code, SecsType.ownBytes, walk_some h₂, walk_some h₃, walk_some h₄, walk_nil]

theorem twoLists_fits : FitsBuffers noFloats (cstr "S1F1") twoListsBody := by
  have hname : ∀ top below,
      (pathName (cstr "S1F1") (framesPath below ++ [top.ie + 1])).length ≤ 30 →
      (nextName (cstr "S1F1") (top :: below)).length ≤ 30 := by
    intro top below h
    rwa [nextName_eq, itemName_eq_pathName, ← pathName_concat]
  have hone : decimal 1 = [digit 1] := by rw [decimal, if_pos (by decide)]
  have htwo : decimal 2 = [digit 2] := by rw [decimal, if_pos (by decide)]
  rw [FitsBuffers, walk_twoLists]
  simp only [Fits, secsType?_code, Option.some.injEq, forall_eq', and_true, implies_true]
  rw [framesAfter_list (by decide), framesAfter_of_not_list (by simp), closed_of_ne _ (by decide),
    framesAfter_list (by decide)]
  refine ⟨.of_short (hname _ _ ?_) (by simp) (by simp [secsType?_code]),
    .of_short (hname _ _ ?_) (by simp) (by simp [secsType?_code]),
    .of_short (hname _ _ ?_) (by simp) (by simp [secsType?_code]),
    .of_short (hname _ _ ?_) (by simp) (by simp [secsType?_code])⟩ <;>
  simp [pathName, framesPath, hone, htwo, cstr]

theorem base_names_are_paths_twoLists :
    NamedByPaths noFloats (cstr "S1F1") twoListsBody [] twoLists := by
  refine (base_names_are_paths_iff noFloats (cstr "S1F1") twoListsBody [] twoLists twoLists_encodes
    twoLists_fits).2 ⟨⟨trivial, ⟨?_, trivial⟩, trivial⟩, trivial⟩
  exact .inl (by decide)

def emptyFloat : MessageBody := ⟨[0x91, 0], by decide⟩

theorem emptyFloat_fits : FitsBuffers noFloats (cstr "S1F1") emptyFloat := by
  have hheader : takeHeader emptyFloat.bytes = some (⟨0x90, 0⟩, []) := rfl
  have hwalk : walk emptyFloat.bytes = ([⟨0x90, 0⟩], .finished) := by
    rw [walk_some hheader]
    simp [secsType?, SecsType.ownBytes, walk_nil]
  rw [FitsBuffers, hwalk]
  refine ⟨headerFits_s1f1 _ _ ?_, fun _ _ => trivial⟩
  intro t ht
  cases ht
  refine ⟨fun i hi => ?_, fun h => ?_, fun h => ?_⟩
  · cases hi
  · cases h
  · cases h

/-- No variable is stored for it, so that its name is missing. -/
theorem base_names_not_always_paths :
    ¬ ∀ (fl : FloatText) (varPrefix : Bytes) (body : MessageBody) (log : Bytes) (f : ItemTree),
      f.Encodes body.bytes → FitsBuffers fl varPrefix body →
        NamedByPaths fl varPrefix body log f := by
  intro hall
  have hencodes : (ItemTree.data (.elements .float4) [] .done).Encodes emptyFloat.bytes :=
    @ItemTree.Encodes.data 1 _ _ _ _ (by decide) (by decide) (dvd_zero _) .done
  have hstored := (namedByPaths_iff hencodes emptyFloat_fits).1
    (hall noFloats (cstr "S1F1") emptyFloat [] _ hencodes emptyFloat_fits)
  exact absurd hstored.1 (by decide)

end ScOpen
