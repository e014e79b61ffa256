import ScOpen.HsmsDelivery
import ScOpen.MessageHeaders
import ScOpen.MessageVariables
import ScOpen.SecsDecodeNoArrays
import ScOpen.SecsStations

/-!
# From a send command to the variables of the receiver

A program encodes the items of a send command and sends them, over HSMS or in the blocks of SECS-I.
The handler of the other program deletes its temporary variables, receives the message, adds the
variables of the header and of the items, and sorts them before the program goes on. It then finds
what was sent, and nothing else.
-/

namespace ScOpen

/-! ## What the receiver makes of a message -/

/-- `var_prefix`. -/
def MessageHead.varPrefix (head : MessageHead) : Bytes :=
  cstr "S" ++ decimal head.stream ++ cstr "F" ++ decimal head.function

def MessageHead.variables (head : MessageHead) : List TmpVariable :=
  [(cstr "SXFY", head.varPrefix), (head.varPrefix ++ cstr ".DEVICE_ID", decimal head.deviceId),
    (head.varPrefix ++ cstr ".WAIT_BIT", if head.waitBit ≠ 0 then cstr "1" else cstr "0")]

/-- What `recv_secs()` and `recv_hsms()` do with a whole message: what the decoder returns, and what
is given to `tmp_variable_add()` in turn. -/
def receivedVariables (fl : FloatText) (arrays : Bool) (header : MessageHeader)
    (body : MessageBody) : Except Fault (ℕ × List (Bytes × Bytes × ℤ)) := do
  let head := recvHead header
  let (iret, st) ←
    if arrays then secsDecode fl head.varPrefix body (headLog head)
    else secsDecodeNoArrays fl head.varPrefix body (headLog head)
  return (iret, head.variables.map (fun v => (v.1, v.2, -1)) ++
    st.vars.map fun v => (v.1, v.2, (v.2.length : ℤ)))

def handlerTable (lib : TmpLibrary) (t : TmpTable) (vars : List (Bytes × Bytes × ℤ)) : TmpTable :=
  TmpBuild.run lib (tmpVariableDeleteAll t) (.adds vars)

def Finds (fl : FloatText) (lib : TmpLibrary) (t : TmpTable) (behind : ℕ → UInt8)
    (header : MessageHeader) (body : MessageBody) (vars : List TmpVariable) : Prop :=
  ∃ added, receivedVariables fl true header body = .ok (0, added) ∧
    ∀ name value, tmpVariableGet lib behind (handlerTable lib t added) name = some value ↔
      (name, value) ∈ vars

/-! ## Names -/

theorem varPrefix_second (head : MessageHead) :
    ∃ c rest, head.varPrefix = chr 'S' :: c :: rest ∧ IsDigit c := by
  obtain ⟨c, rest, hdecimal⟩ := List.exists_cons_of_ne_nil (decimal_ne_nil head.stream)
  have hdigit := isDigit_of_mem_decimal (n := head.stream) (c := c) (by rw [hdecimal]; simp)
  refine ⟨c, rest ++ cstr "F" ++ decimal head.function, ?_, hdigit⟩
  rw [MessageHead.varPrefix, hdecimal]
  simp [cstr]

theorem sxfy_ne (head : MessageHead) (rest : Bytes) : cstr "SXFY" ≠ head.varPrefix ++ rest := by
  obtain ⟨c, tail, hsxfy, hdigit⟩ := varPrefix_second head
  rw [hsxfy]
  intro h
  have hsecond : chr 'X' = c := congrArg (fun text => text.getD 1 0) h
  rw [← hsecond] at hdigit
  revert hdigit
  decide

/-- Behind the prefix, the name of an item goes on with a position. -/
theorem pathName_part (varPrefix : Bytes) (j : ℕ) (rest : List ℕ) (part : Bytes) :
    ∃ c tail, pathName varPrefix (j :: rest) ++ part = varPrefix ++ chr '.' :: c :: tail ∧
      IsDigit c := by
  obtain ⟨c, tail, hdecimal⟩ := List.exists_cons_of_ne_nil (decimal_ne_nil j)
  have hdigit := isDigit_of_mem_decimal (n := j) (c := c) (by rw [hdecimal]; simp)
  refine ⟨c, tail ++ (rest.flatMap fun i => cstr "." ++ decimal i) ++ part, ?_, hdigit⟩
  rw [pathName, List.flatMap_cons, hdecimal]
  simp [cstr]

/-- No two variables of a message and its header have the same name. -/
theorem MessageHead.nodup_variables (head : MessageHead) (f : Sml) :
    ((head.variables ++ f.variables head.varPrefix 1).map Prod.fst).Nodup := by
  have hpath : pathName head.varPrefix [] = head.varPrefix := by simp [pathName]
  have hitems := f.nodup_variables head.varPrefix [] 1
  rw [hpath] at hitems
  have hnames : ∀ x ∈ (f.variables head.varPrefix 1).map Prod.fst,
      ∃ c tail, x = head.varPrefix ++ chr '.' :: c :: tail ∧ IsDigit c := by
    intro x hx
    rw [← hpath] at hx
    obtain ⟨j, rest, part, rfl, -, -⟩ := Sml.variables_names x hx
    exact pathName_part head.varPrefix j rest part
  have hown : head.variables.map Prod.fst =
      [cstr "SXFY", head.varPrefix ++ cstr ".DEVICE_ID", head.varPrefix ++ cstr ".WAIT_BIT"] := rfl
  have hletter : ∀ (d : UInt8) (word : Bytes), ¬ IsDigit d →
      head.varPrefix ++ chr '.' :: d :: word ∉ (f.variables head.varPrefix 1).map Prod.fst := by
    intro d word hd hmem
    obtain ⟨c, tail, hname, hdigit⟩ := hnames _ hmem
    have htail := List.append_cancel_left hname
    simp only [List.cons.injEq, true_and] at htail
    exact hd (htail.1 ▸ hdigit)
  rw [List.map_append, hown, List.nodup_append]
  refine ⟨?_, hitems, ?_⟩
  · have hdevice : cstr ".DEVICE_ID" ≠ cstr ".WAIT_BIT" := by decide
    simpa using ⟨⟨sxfy_ne head _, sxfy_ne head _⟩, hdevice⟩
  · rintro x hx _ hy rfl
    simp only [List.mem_cons, List.not_mem_nil, or_false] at hx
    rcases hx with rfl | rfl | rfl
    · obtain ⟨c, tail, hname, -⟩ := hnames _ hy
      exact sxfy_ne head _ hname
    · exact hletter (chr 'D') (cstr "EVICE_ID") (by decide) hy
    · exact hletter (chr 'W') (cstr "AIT_BIT") (by decide) hy

/-! ## The table of the handler -/

section

variable {lib : TmpLibrary} {t : TmpTable} {fl : FloatText} {behind : ℕ → UInt8}

/-- `strlen()` finds the length of a text without a NUL. -/
theorem addEntry_strlen (lib : TmpLibrary) (name : Bytes) {value : Bytes} (h : 0 ∉ value) :
    lib.addEntry name value (-1) = lib.addEntry name value value.length := by
  have hlength : ¬ (value.length : ℤ) < 0 := by omega
  simp only [TmpLibrary.addEntry, cString_eq_self h, if_neg hlength, Int.toNat_natCast]
  rfl

theorem MessageHead.zero_notMem {head : MessageHead} {v : TmpVariable} (hv : v ∈ head.variables) :
    0 ∉ v.2 := by
  have hdecimal := zero_notMem_decimal
  simp only [MessageHead.variables, List.mem_cons, List.not_mem_nil, or_false] at hv
  rcases hv with rfl | rfl | rfl
  · simp only [MessageHead.varPrefix, List.mem_append, hdecimal, or_false]
    decide
  · exact hdecimal head.deviceId
  · have hone : 0 ∉ cstr "1" := by decide
    have hzero : 0 ∉ cstr "0" := by decide
    split
    · exact hone
    · exact hzero

/-- Adding a variable up to its NUL is adding all of it, when it has none. -/
theorem foldl_strlen {vars : List TmpVariable} (h : ∀ v ∈ vars, 0 ∉ v.2) (t : TmpTable) :
    (vars.map fun v => (v.1, v.2, (-1 : ℤ))).foldl
        (fun t v => tmpVariableAdd lib t v.1 v.2.1 v.2.2) t =
      (vars.map fun v => (v.1, v.2, (v.2.length : ℤ))).foldl
        (fun t v => tmpVariableAdd lib t v.1 v.2.1 v.2.2) t := by
  induction vars generalizing t with
  | nil => rfl
  | cons v vars ih =>
      have hentry := addEntry_strlen lib v.1 (h v List.mem_cons_self)
      simp only [List.map_cons, List.foldl_cons, tmpVariableAdd, hentry]
      exact ih (fun u hu => h u (List.mem_cons_of_mem v hu)) _

/-- The handler's table has the variables of the header and of the items. -/
theorem get_handlerTable (head : MessageHead) (f : Sml) (name value : Bytes) :
    tmpVariableGet lib behind (handlerTable lib t
        (head.variables.map (fun v => (v.1, v.2, -1)) ++
          (f.variables head.varPrefix 1).map fun v => (v.1, v.2, (v.2.length : ℤ)))) name =
      some value ↔ (name, value) ∈ head.variables ++ f.variables head.varPrefix 1 := by
  have hsame : handlerTable lib t (head.variables.map (fun v => (v.1, v.2, -1)) ++
        (f.variables head.varPrefix 1).map fun v => (v.1, v.2, (v.2.length : ℤ))) =
      TmpBuild.run lib (tmpVariableDeleteAll t)
        (.adds ((head.variables ++ f.variables head.varPrefix 1).map
          fun v => (v.1, v.2, (v.2.length : ℤ)))) := by
    simp only [handlerTable, TmpBuild.run, List.map_append, List.foldl_append]
    rw [foldl_strlen fun v hv => MessageHead.zero_notMem hv]
  rw [hsame]
  exact get_adds rfl (head.nodup_variables f) behind name value

/-- Whatever brought the message, the variables of its header and of its items are found. -/
theorem finds_variables {header : MessageHeader} {head : MessageHead} {f : Sml}
    (hcarries : recvHead header = head) (hkept : f.All Leaf.Kept) (hsizes : f.SizesFit)
    (h : f.encode.length < 2 ^ 32) (hfits : FitsBuffers fl head.varPrefix ⟨f.encode, h⟩) :
    Finds fl lib t behind header ⟨f.encode, h⟩
      (head.variables ++ f.variables head.varPrefix 1) := by
  obtain ⟨out, hrun, hvars⟩ := secsDecode_variables fl head.varPrefix (headLog head) hkept hsizes h
    hfits
  refine ⟨_, ?_, fun name value => get_handlerTable head f name value⟩
  simp only [receivedVariables, hcarries, if_true, hrun, ← hvars]
  rfl

end

/-! ## The whole way -/

section

variable {σ : Type} {cmds : EncodeCommands σ} {scan : FloatScan} {fl : FloatText} {p : Program σ}
  {f : Sml}

/-- A send command whose values have their places is encoded to the items' bytes. -/
theorem encodesTo_encode (cmds : EncodeCommands σ) (scan : FloatScan) (fl : FloatText)
    (hp : Presents p f) (hkept : f.All Leaf.Kept) (hsizes : f.SizesFit) (hnesting : f.NestingFits 22 0)
    (h : f.encode.length < 2 ^ 32) :
    ∃ encoded, EncodesTo cmds scan fl p encoded ∧ encoded.iret = 0 ∧ encoded.buffer = f.encode := by
  have hstored := Sml.stored_eq_encode hkept hsizes
  have hroom : LogRoom f.stored := by
    rw [hstored]
    exact (Sml.logRoom_iff hsizes).2 ⟨hnesting, h⟩
  have hencodes := (encodes_stored_iff cmds scan fl hp (hkept.mono fun _ hv => hv.rejected)
    ⟨0, 0, 0, 0⟩ f.encode).2 ⟨hroom, hstored⟩
  obtain ⟨k, encoded, hrun, hiret, hbuffer⟩ := hencodes
  exact ⟨encoded, ⟨k, hrun⟩, hiret, hbuffer⟩

/-- A message that is alone on the connection arrives however the stream is cut. -/
theorem recvHsmsI_alone (m : HsmsMessage) (cut : ℕ → ℕ) :
    ∃ counts line, recvHsmsI (chunkedLine (sendHsmsI m.header m.body).flatten cut 0) =
      .received m.header m.body counts line := by
  have hfits := m.length_fits
  have hrun := recvHsmsI_chunked m [] cut 0
  have hwire : wireBytes [m] = (sendHsmsI m.header m.body).flatten := by
    simp only [wireBytes, List.flatMap_cons, List.flatMap_nil, List.append_nil]
  have hnil : m.body ++ wireBytes [] = m.body := List.append_nil m.body
  rw [hwire, hnil] at hrun
  obtain ⟨counts, r, hbody, -⟩ := recvBody_last m.header m.body [] [] cut (0 + 14) (by omega)
    (List.forall_mem_nil _)
  rw [hrun, hbody, List.nil_append]
  exact ⟨counts, _, rfl⟩

/-- What a send command says is what the program on the other end of the connection finds in its
temporary variables: the numbers of the header and the items, each under its own name, and nothing
else, whatever the pieces in which the message arrives and whatever was in the table before. -/
theorem hsms_send_finds (lib : TmpLibrary) (t : TmpTable) (behind : ℕ → UInt8)
    (systemBytes : UInt32) (hp : Presents p f) (hkept : f.All Leaf.Kept) (hsizes : f.SizesFit)
    (hnesting : f.NestingFits 22 0) (h : f.encode.length < 2 ^ 32)
    (hlength : f.encode.length + 10 < 2 ^ 32)
    (hhead : (encodeHead cmds ⟨0, 0, 0, 0⟩ p).2.1.Fits)
    (hfits : FitsBuffers fl (encodeHead cmds ⟨0, 0, 0, 0⟩ p).2.1.varPrefix ⟨f.encode, h⟩) :
    ∃ encoded writes, EncodesTo cmds scan fl p encoded ∧
      hsmsWrites systemBytes.toNat encoded = some writes ∧
      ∀ cut, ∃ header : MessageHeader, ∃ body : MessageBody, ∃ counts line,
        recvHsmsI (chunkedLine writes.flatten cut 0) =
          .received header.val body.bytes counts line ∧
        recvSystemBytes .hsms header = systemBytes.toNat ∧
        Finds fl lib t behind header body
          (encoded.head.variables ++ f.variables encoded.head.varPrefix 1) := by
  obtain ⟨encoded, hencoded, hiret, hbuffer⟩ := encodesTo_encode cmds scan fl hp hkept hsizes
    hnesting h
  have hnumbers := hencoded.head_eq
  have hwait : encoded.head.waitBit ≤ 1 := by
    rw [hnumbers]
    exact encodeHead_waitBit (Nat.zero_le _) p
  rw [← hnumbers] at hhead hfits
  have hten : (hsmsHeader encoded.head systemBytes.toNat).length = 10 := rfl
  have hcarries : Carries .hsms ⟨_, hten⟩ encoded.head systemBytes.toNat :=
    carries_of_fits .hsms hhead hwait (hsmsHeader_eq encoded.head systemBytes.toNat)
  refine ⟨encoded, sendHsmsI (hsmsHeader encoded.head systemBytes.toNat) f.encode, hencoded, ?_,
    fun cut => ?_⟩
  · rw [hsmsWrites, if_neg (not_not.2 hiret), hbuffer]
  · obtain ⟨counts, line, hrecv⟩ := recvHsmsI_alone ⟨_, f.encode, hten, hlength⟩ cut
    exact ⟨⟨_, hten⟩, ⟨f.encode, h⟩, counts, line, hrecv, hcarries.systemBytes,
      finds_variables hcarries.head hkept hsizes h hfits⟩

end

/-- `S1F1` with a list of two numbers. -/
theorem hsms_send_finds_sample : ∃ encoded writes,
    EncodesTo noCommands noScan noFloats (s1f1 sampleTokens) encoded ∧
      hsmsWrites (7 : UInt32).toNat encoded = some writes ∧
      ∀ cut, ∃ header : MessageHeader, ∃ body : MessageBody, ∃ counts line,
        recvHsmsI (chunkedLine writes.flatten cut 0) =
          .received header.val body.bytes counts line ∧
        recvSystemBytes .hsms header = (7 : UInt32).toNat ∧
        Finds noFloats plainTmpLibrary noTmpVariables (fun _ => 0) header body
          (encoded.head.variables ++ sampleItems.variables encoded.head.varPrefix 1) := by
  have hconverts : sampleItems.All Leaf.Converts := by
    refine ⟨⟨fun d hd => ?_, fun d hd => ?_, trivial⟩, trivial⟩
    · rw [List.mem_singleton.1 hd]
      exact ⟨by decide, by decide⟩
    · rw [List.mem_singleton.1 hd]
      exact ⟨by decide, by decide⟩
  have hsxfy : (encodeHead noCommands ⟨0, 0, 0, 0⟩ (s1f1 sampleTokens)).2.1.varPrefix =
      cstr "S1F1" := by
    have hhead : (encodeHead noCommands ⟨0, 0, 0, 0⟩ (s1f1 sampleTokens)).2.1 = ⟨1, 1, 0, 0⟩ := rfl
    rw [hhead]
    simp [MessageHead.varPrefix, decimal]
    rfl
  have hlength : sampleItems.encode.length + 10 < 2 ^ 32 := by decide
  apply hsms_send_finds plainTmpLibrary noTmpVariables (fun _ => 0) 7
    (presents_s1f1 sample_renders) (hconverts.mono fun v hv => v.converts_iff.1 hv) sample_sizesFit
    (by simp [Sml.NestingFits, sampleItems]) (by omega) hlength
  · exact ⟨by decide, by decide, by decide⟩
  · rw [hsxfy]
    exact sample_fits _

end ScOpen
