import ScOpen.ReadSource

/-!
# The include paths

`-I` stores its directories under the numbers 0, 1, 2 and so on. The search for a file that is not
found as named counts up twice for each directory that it tries.
-/

namespace ScOpen

def everySecond {α : Type} : List α → List α
  | [] => []
  | [x] => [x]
  | x :: _ :: xs => x :: everySecond xs

def includePaths : List ReadSwitch → List Bytes
  | [] => []
  | .include_ path :: switches => path :: includePaths switches
  | .define_ _ _ :: switches => includePaths switches
  | .preprocess :: switches => includePaths switches

/-- The name in `file[128]`. `strncpy()` ends only a name of less than 127 bytes; a longer one goes
on with what stands behind. -/
def fileBuffer (behind name : Bytes) : Bytes :=
  if name.length < 127 then name else name.take 127 ++ cString behind

section

variable (files : Bytes → Option Bytes)

/-- The include paths are tried from some number on; every other one is passed over. -/
def searchInclude (macros : Macros) (file : Bytes) : ℕ → ℕ → Option (Bytes × Bytes)
  | 0, _ => none
  | n + 1, i =>
      match macros (includeStr i) with
      | none => none
      | some path =>
          let name := path ++ chr '/' :: file
          match files name with
          | some text => some (name, text)
          | none => searchInclude macros file n (i + 2)

def openInclude (n : ℕ) (macros : Macros) (file : Bytes) : Option (Bytes × Bytes) :=
  if file = [] then none
  else
    match files file with
    | some text => some (file, text)
    | none => searchInclude files macros file n 0

def readInclude (n : ℕ) (macros : Macros) (behind name : Bytes) : Option (Bytes × Bytes) :=
  openInclude files n macros (fileBuffer behind name)

def inDirectory (name path : Bytes) : Option (Bytes × Bytes) :=
  (files (path ++ chr '/' :: name)).map fun text => (path ++ chr '/' :: name, text)

def firstDirectory (name : Bytes) (paths : List Bytes) : Option Bytes :=
  paths.find? fun path => (inDirectory files name path).isSome

end

section

variable {α : Type}

theorem everySecond_cons (x : α) (xs : List α) :
    everySecond (x :: xs) = x :: everySecond xs.tail := by
  cases xs with
  | nil => rfl
  | cons y ys => rfl

theorem everySecond_getElem? (xs : List α) (k : ℕ) : (everySecond xs)[k]? = xs[2 * k]? := by
  induction xs using everySecond.induct generalizing k with
  | case1 => rfl
  | case2 x =>
      cases k with
      | zero => rfl
      | succ k => rfl
  | case3 x y xs ih =>
      cases k with
      | zero => rfl
      | succ k => exact ih k

theorem everySecond_subset (xs : List α) : everySecond xs ⊆ xs := by
  intro x hx
  obtain ⟨k, hk⟩ := List.mem_iff_getElem?.1 hx
  rw [everySecond_getElem?] at hk
  exact List.mem_of_getElem? hk

/-- What a search returns is found in the first element in which it finds something. -/
theorem findSome?_eq_bind {β : Type} (f : α → Option β) (xs : List α) :
    xs.findSome? f = (xs.find? fun x => (f x).isSome).bind f := by
  induction xs with
  | nil => rfl
  | cons x xs ih =>
      rw [List.findSome?_cons, List.find?_cons]
      cases hx : f x with
      | none => exact ih
      | some y => exact hx.symm

/-- Two searches have the same result when what the first one finds first is also what the other
one finds first. -/
theorem findSome?_eq_iff {β : Type} {f : α → Option β} {xs ys : List α} (hsub : ys ⊆ xs)
    (hinj : ∀ x y z, f x = some z → f y = some z → x = y) :
    ys.findSome? f = xs.findSome? f ↔
      ∀ x, xs.find? (fun x => (f x).isSome) = some x →
        ys.find? (fun x => (f x).isSome) = some x := by
  rw [findSome?_eq_bind, findSome?_eq_bind]
  constructor
  · intro hsame x hx
    have hfound : (f x).isSome := by
      have h := List.find?_some hx
      exact h
    obtain ⟨z, hz⟩ := Option.isSome_iff_exists.1 hfound
    rw [hx, Option.bind_some, hz] at hsame
    obtain ⟨y, hy, hfy⟩ := Option.bind_eq_some_iff.1 hsame
    rw [hy, hinj y x z hfy hz]
  · intro hfirst
    cases hx : xs.find? fun x => (f x).isSome with
    | some x => rw [hfirst x hx]
    | none =>
        have hy : ys.find? (fun x => (f x).isSome) = none :=
          List.find?_eq_none.2 fun y hy => List.find?_eq_none.1 hx y (hsub hy)
        rw [hy]

end

section

variable {files : Bytes → Option Bytes} {macros : Macros} {name : Bytes}

theorem inDirectory_inj {path path' : Bytes} {found : Bytes × Bytes}
    (h : inDirectory files name path = some found) (h' : inDirectory files name path' = some found) :
    path = path' := by
  obtain ⟨text, -, rfl⟩ := Option.map_eq_some_iff.1 h
  obtain ⟨text', -, heq⟩ := Option.map_eq_some_iff.1 h'
  exact (List.append_cancel_right (congrArg Prod.fst heq)).symm

theorem includeStr_inj {i j : ℕ} : includeStr i = includeStr j ↔ i = j := by
  constructor
  · intro h
    exact decimal_injective (List.append_cancel_left (List.append_cancel_right h))
  · rintro rfl
    rfl

/-- The switches number their directories one by one. -/
theorem switchMacros_paths {switches : List ReadSwitch} {paths : List Bytes} {macros' : Macros}
    (h : switchMacros paths.length switches macros = some macros')
    (hpaths : ∀ i, macros (includeStr i) = paths[i]?)
    (hnames : ∀ name value, .define_ name value ∈ switches → ∀ i, name ≠ includeStr i) (i : ℕ) :
    macros' (includeStr i) = (paths ++ includePaths switches)[i]? := by
  induction switches generalizing paths macros with
  | nil =>
      cases h
      rw [includePaths, List.append_nil, hpaths]
  | cons switch switches ih =>
      have hrest : ∀ name value, .define_ name value ∈ switches → ∀ i, name ≠ includeStr i :=
        fun name value hmem => hnames name value (List.mem_cons_of_mem _ hmem)
      cases switch with
      | include_ path =>
          rw [switchMacros] at h
          split_ifs at h
          have hlength : (paths ++ [path]).length = paths.length + 1 := List.length_append
          rw [← hlength] at h
          have hnext : ∀ j, Function.update macros (includeStr paths.length) (some path)
              (includeStr j) = (paths ++ [path])[j]? := by
            intro j
            by_cases hj : j = paths.length
            · subst hj
              rw [Function.update_self, List.getElem?_concat_length]
            · rw [Function.update_of_ne (fun heq => hj (includeStr_inj.1 heq)), hpaths]
              rcases lt_or_gt_of_ne hj with hlt | hgt
              · rw [List.getElem?_append_left hlt]
              · rw [List.getElem?_eq_none hgt.le, List.getElem?_eq_none]
                rw [hlength]
                exact hgt
          rw [ih h hnext hrest, includePaths, List.append_assoc]
          rfl
      | define_ name value =>
          rw [switchMacros] at h
          split_ifs at h
          refine ih h (fun j => ?_) hrest
          have hne : includeStr j ≠ name :=
            (hnames name value List.mem_cons_self j).symm
          rw [Function.update_of_ne hne, hpaths]
      | preprocess => exact ih h hpaths hrest

theorem switchMacros_start {switches : List ReadSwitch}
    (h : switchMacros 0 switches (fun _ => none) = some macros)
    (hnames : ∀ name value, .define_ name value ∈ switches → ∀ i, name ≠ includeStr i) (i : ℕ) :
    macros (includeStr i) = (includePaths switches)[i]? := by
  have hstart : ∀ i, (none : Option Bytes) = ([] : List Bytes)[i]? :=
    fun _ => List.getElem?_nil.symm
  exact @switchMacros_paths _ switches [] macros h hstart hnames i

/-- The search tries every second directory from a number on. -/
theorem searchInclude_eq {paths : List Bytes} (hpaths : ∀ i, macros (includeStr i) = paths[i]?)
    {n i : ℕ} (hn : paths.length < n + i) :
    searchInclude files macros name n i =
      (everySecond (paths.drop i)).findSome? (inDirectory files name) := by
  induction n generalizing i with
  | zero =>
      rw [List.drop_eq_nil_of_le (by omega)]
      rfl
  | succ n ih =>
      rw [searchInclude, hpaths]
      cases hi : paths[i]? with
      | none =>
          rw [List.drop_eq_nil_of_le (List.getElem?_eq_none_iff.1 hi)]
          rfl
      | some path =>
          have hdrop : paths.drop i = path :: paths.drop (i + 1) := by
            obtain ⟨hlt, hpath⟩ := List.getElem?_eq_some_iff.1 hi
            rw [List.drop_eq_getElem_cons hlt, hpath]
          have hnext := @ih (i + 2) (by omega)
          rw [hdrop, everySecond_cons, List.tail_drop, List.findSome?_cons, inDirectory]
          cases hfile : files (path ++ chr '/' :: name) with
          | some text => simp only [hfile, Option.map_some]
          | none =>
              simp only [hfile, Option.map_none]
              exact hnext

theorem readInclude_eq {paths : List Bytes} (hpaths : ∀ i, macros (includeStr i) = paths[i]?)
    (hname : name ≠ []) (hlength : name.length < 127) (hnot : files name = none) {n : ℕ}
    (hn : paths.length < n) (behind : Bytes) :
    readInclude files n macros behind name =
      (everySecond paths).findSome? (inDirectory files name) := by
  have hbuffer : fileBuffer behind name = name := if_pos hlength
  have hsearch : searchInclude files macros name n 0 =
      (everySecond (paths.drop 0)).findSome? (inDirectory files name) := searchInclude_eq hpaths hn
  rw [readInclude, hbuffer, openInclude, if_neg hname, hnot]
  exact hsearch

/-- A file that is not found as named is read from the first directory that contains it, and
fails only when none does, just when that directory is also the first one that does among those
at the positions 0, 2, 4 and so on. -/
theorem include_search_right_iff {switches : List ReadSwitch} {macros₀ : Macros}
    (hswitches : switchMacros 0 switches (fun _ => none) = some macros₀)
    (hnames : ∀ name value, .define_ name value ∈ switches → ∀ i, name ≠ includeStr i)
    (hmacros : ∀ i, macros (includeStr i) = macros₀ (includeStr i))
    (hname : name ≠ []) (hlength : name.length < 127) (hnot : files name = none) {n : ℕ}
    (hn : (includePaths switches).length < n) (behind : Bytes) :
    readInclude files n macros behind name =
        (includePaths switches).findSome? (inDirectory files name) ↔
      ∀ path, firstDirectory files name (includePaths switches) = some path →
        firstDirectory files name (everySecond (includePaths switches)) = some path := by
  have hpaths : ∀ i, macros (includeStr i) = (includePaths switches)[i]? := by
    intro i
    rw [hmacros, switchMacros_start hswitches hnames]
  rw [readInclude_eq hpaths hname hlength hnot hn]
  exact findSome?_eq_iff (everySecond_subset _) fun _ _ _ => inDirectory_inj

end

def oneFile (name : Bytes) : Option Bytes := if name = cstr "c/f" then some (cstr "x") else none

def threePaths : List ReadSwitch :=
  [.include_ (cstr "a"), .include_ (cstr "b"), .include_ (cstr "c")]

theorem include_search_right_three :
    ∃ macros, switchMacros 0 threePaths (fun _ => none) = some macros ∧
      readInclude oneFile 4 macros [] (cstr "f") = some (cstr "c/f", cstr "x") := by
  obtain ⟨macros, hmacros⟩ : ∃ macros, switchMacros 0 threePaths (fun _ => none) = some macros :=
    ⟨_, rfl⟩
  have hnames : ∀ name value, ReadSwitch.define_ name value ∈ threePaths →
      ∀ i, name ≠ includeStr i := by
    intro name value hmem
    simp [threePaths] at hmem
  have hfirst : ∀ path, firstDirectory oneFile (cstr "f") (includePaths threePaths) = some path →
      firstDirectory oneFile (cstr "f") (everySecond (includePaths threePaths)) = some path := by
    intro path hpath
    cases hpath
    rfl
  exact ⟨macros, hmacros, (include_search_right_iff hmacros hnames (fun _ => rfl) (by decide)
    (by decide) rfl (by decide) []).2 hfirst⟩

/-- The file is in the second directory, which is passed over. -/
theorem include_search_not_always_right :
    ∃ macros, switchMacros 0 [.include_ (cstr "a"), .include_ (cstr "c")] (fun _ => none) =
        some macros ∧
      oneFile (cstr "c/f") = some (cstr "x") ∧
      readInclude oneFile 3 macros [] (cstr "f") = none := by
  obtain ⟨macros, hmacros⟩ : ∃ macros, switchMacros 0
      [.include_ (cstr "a"), .include_ (cstr "c")] (fun _ => none) = some macros := ⟨_, rfl⟩
  have hnames : ∀ name value, ReadSwitch.define_ name value ∈
      [ReadSwitch.include_ (cstr "a"), .include_ (cstr "c")] → ∀ i, name ≠ includeStr i := by
    intro name value hmem
    simp at hmem
  refine ⟨macros, hmacros, rfl, ?_⟩
  rw [readInclude_eq (switchMacros_start hmacros hnames) (by decide) (by decide) rfl (by decide) []]
  rfl

end ScOpen
