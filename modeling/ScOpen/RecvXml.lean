import ScOpen.CTypes
import ScOpen.Substrings

/-!
# Receiving an XML element

The bytes in front of the first `<` are dropped. The name behind it is copied into a buffer for the
end tag, and the bytes are collected until the end tag stands among them.
-/

namespace ScOpen

inductive TagState where
  | outside | inName | inElement
  deriving DecidableEq

/-- What becomes of a call: it returns the reply and leaves the rest of the stream, it waits for
another byte, or it writes behind the buffer of the tag. -/
inductive XmlResult where
  | returned (reply rest : Bytes)
  | waiting
  | overflow
  deriving DecidableEq

/-- The loop of `recv_xml()`. The tag and its terminator have 256 bytes. -/
def recvXmlLoop : TagState → Bytes → Bytes → Bytes → XmlResult
  | _, _, _, [] => .waiting
  | .outside, tag, reply, c :: stream =>
      if c = chr '<' then recvXmlLoop .inName (cstr "</") (reply ++ [c]) stream
      else recvXmlLoop .outside tag reply stream
  | .inName, tag, reply, c :: stream =>
      if c = chr ' ' ∨ c = chr '>' then
        if (tag ++ cstr ">").length + 1 ≤ 256 then
          recvXmlLoop .inElement (tag ++ cstr ">") (reply ++ [c]) stream
        else .overflow
      else if (tag ++ cString [c]).length + 1 ≤ 256 then
        recvXmlLoop .inName (tag ++ cString [c]) (reply ++ [c]) stream
      else .overflow
  | .inElement, tag, reply, c :: stream =>
      if (Substrings.behind tag (cString (reply ++ [c]))).isSome then
        .returned (reply ++ [c]) stream
      else recvXmlLoop .inElement tag (reply ++ [c]) stream

def recvXml (stream : Bytes) : XmlResult := recvXmlLoop .outside [] [] stream

/-! ## XML elements -/

def XmlSpace (c : UInt8) : Prop := c = chr ' ' ∨ c = 9 ∨ c = 10 ∨ c = 13

/-- A name: none of its bytes is white space or part of the markup around it. -/
structure XmlName (name : Bytes) : Prop where
  ne : name ≠ []
  bytes : ∀ c ∈ name, ¬ XmlSpace c ∧ c ≠ chr '<' ∧ c ≠ chr '>' ∧ c ≠ chr '/' ∧ c ≠ chr '=' ∧
    c ≠ chr '"' ∧ c ≠ chr '\'' ∧ c ≠ 0

inductive XmlAttributes : Bytes → Prop
  | space {s : Bytes} (h : ∀ c ∈ s, XmlSpace c) : XmlAttributes s
  | cons {s name before after value rest : Bytes} {quote : UInt8} (hne : s ≠ [])
      (hs : ∀ c ∈ s, XmlSpace c) (hname : XmlName name) (hbefore : ∀ c ∈ before, XmlSpace c)
      (hafter : ∀ c ∈ after, XmlSpace c) (hquote : quote = chr '"' ∨ quote = chr '\'')
      (hvalue : ∀ c ∈ value, c ≠ quote ∧ c ≠ chr '<' ∧ c ≠ 0) (h : XmlAttributes rest) :
      XmlAttributes (s ++ (name ++ (before ++ chr '=' ::
        (after ++ quote :: (value ++ quote :: rest)))))

inductive XmlMarkup : Bytes → Prop
  | comment {body : Bytes} (h : ¬ cstr "--" <:+: body) (hzero : 0 ∉ body) :
      XmlMarkup (cstr "<!--" ++ (body ++ cstr "-->"))
  | data {body : Bytes} (h : ¬ cstr "]]>" <:+: body) (hzero : 0 ∉ body) :
      XmlMarkup (cstr "<![CDATA[" ++ (body ++ cstr "]]>"))
  | instruction {body : Bytes} (h : ¬ cstr "?>" <:+: body) (hzero : 0 ∉ body) :
      XmlMarkup (cstr "<?" ++ (body ++ cstr "?>"))

inductive XmlPart where
  | element (name : Bytes)
  | content

inductive Xml : XmlPart → Bytes → Prop
  | empty {name attrs : Bytes} (hname : XmlName name) (hattrs : XmlAttributes attrs) :
      Xml (.element name) (chr '<' :: (name ++ (attrs ++ cstr "/>")))
  | full {name attrs content space : Bytes} (hname : XmlName name) (hattrs : XmlAttributes attrs)
      (h : Xml .content content) (hspace : ∀ c ∈ space, XmlSpace c) :
      Xml (.element name) (chr '<' :: (name ++ (attrs ++ (chr '>' ::
        (content ++ (cstr "</" ++ (name ++ (space ++ cstr ">"))))))))
  | nil : Xml .content []
  | text {c : UInt8} {rest : Bytes} (hopen : c ≠ chr '<') (hzero : c ≠ 0)
      (h : Xml .content rest) : Xml .content (c :: rest)
  | child {name element rest : Bytes} (helement : Xml (.element name) element)
      (h : Xml .content rest) : Xml .content (element ++ rest)
  | markup {body rest : Bytes} (hbody : XmlMarkup body) (h : Xml .content rest) :
      Xml .content (body ++ rest)

def startName (element : Bytes) : Bytes :=
  element.tail.takeWhile fun c => c ≠ chr ' ' ∧ c ≠ chr '>'

def closingTag (name : Bytes) : Bytes := cstr "</" ++ (name ++ cstr ">")

/-- The start of the tag up to the first blank or `>` fits into the buffer; the element ends with
it as its end tag, and this end tag does not stand in front of the end. -/
structure XmlPlain (element : Bytes) : Prop where
  short : (startName element).length ≤ 252
  ends : closingTag (startName element) <:+ element
  first : ¬ closingTag (startName element) <:+: element.dropLast

section

variable {tag reply stream junk more t u name : Bytes}

theorem XmlSpace.ne_zero {c : UInt8} (h : XmlSpace c) : c ≠ 0 := by
  rcases h with rfl | rfl | rfl | rfl <;> decide

theorem XmlSpace.ne_open {c : UInt8} (h : XmlSpace c) : c ≠ chr '<' := by
  rcases h with rfl | rfl | rfl | rfl <;> decide

/-- Neither the terminator nor a `<` stands between a name and the end of its tag. -/
theorem XmlAttributes.bytes {attrs : Bytes} (h : XmlAttributes attrs) :
    ∀ c ∈ attrs, c ≠ 0 ∧ c ≠ chr '<' := by
  induction h with
  | space h => exact fun c hc => ⟨(h c hc).ne_zero, (h c hc).ne_open⟩
  | cons hne hs hname hbefore hafter hquote hvalue h ih =>
      rename_i quote
      have hquotes : quote ≠ 0 ∧ quote ≠ chr '<' := by
        rcases hquote with rfl | rfl <;> decide
      intro c hc
      simp only [List.mem_append, List.mem_cons] at hc
      rcases hc with hc | hc | hc | rfl | hc | rfl | hc | rfl | hc
      · exact ⟨(hs c hc).ne_zero, (hs c hc).ne_open⟩
      · obtain ⟨-, hopen, -, -, -, -, -, hzero⟩ := hname.bytes c hc
        exact ⟨hzero, hopen⟩
      · exact ⟨(hbefore c hc).ne_zero, (hbefore c hc).ne_open⟩
      · decide
      · exact ⟨(hafter c hc).ne_zero, (hafter c hc).ne_open⟩
      · exact hquotes
      · exact ⟨(hvalue c hc).2.2, (hvalue c hc).2.1⟩
      · exact hquotes
      · exact ih c hc

theorem XmlMarkup.noZero {body : Bytes} (h : XmlMarkup body) : 0 ∉ body := by
  have hsplit : ∀ {opening text closing : Bytes}, 0 ∉ opening → 0 ∉ text → 0 ∉ closing →
      0 ∉ opening ++ (text ++ closing) := by
    intro opening text closing hopening htext hclosing hmem
    rcases List.mem_append.1 hmem with hmem | hmem
    · exact hopening hmem
    · exact (List.mem_append.1 hmem).elim htext hclosing
  cases h with
  | comment h hzero => exact hsplit (by decide) hzero (by decide)
  | data h hzero => exact hsplit (by decide) hzero (by decide)
  | instruction h hzero => exact hsplit (by decide) hzero (by decide)

theorem Xml.noZero {part : XmlPart} {text : Bytes} (h : Xml part text) : 0 ∉ text := by
  have hname : ∀ {name : Bytes}, XmlName name → 0 ∉ name := by
    intro name hname hmem
    exact (hname.bytes 0 hmem).2.2.2.2.2.2.2 rfl
  induction h with
  | empty hname' hattrs =>
      simp only [List.mem_cons, List.mem_append, not_or]
      exact ⟨by decide, hname hname', fun hmem => (hattrs.bytes 0 hmem).1 rfl, by decide⟩
  | full hname' hattrs h hspace ih =>
      simp only [List.mem_cons, List.mem_append, not_or]
      exact ⟨by decide, hname hname', fun hmem => (hattrs.bytes 0 hmem).1 rfl, by decide, ih,
        by decide, hname hname', fun hmem => (hspace 0 hmem).ne_zero rfl, by decide⟩
  | nil => exact List.not_mem_nil
  | text hopen hzero h ih =>
      rw [List.mem_cons, not_or]
      exact ⟨hzero.symm, ih⟩
  | child helement h ihelement ih =>
      rw [List.mem_append, not_or]
      exact ⟨ihelement, ih⟩
  | markup hbody h ih =>
      rw [List.mem_append, not_or]
      exact ⟨hbody.noZero, ih⟩

theorem Xml.element_text {text : Bytes} (h : Xml (.element name) text) :
    ∃ t, text = chr '<' :: t ∧ chr '>' ∈ t := by
  cases h with
  | empty hname hattrs =>
      refine ⟨_, rfl, ?_⟩
      simp only [List.mem_append]
      exact .inr (.inr (by decide))
  | full hname hattrs h hspace =>
      refine ⟨_, rfl, ?_⟩
      simp only [List.mem_append, List.mem_cons, true_or, or_true]

/-! ## What is received -/

theorem recvXml_outside (hjunk : chr '<' ∉ junk) (stream : Bytes) :
    recvXml (junk ++ chr '<' :: stream) =
      recvXmlLoop .inName (cstr "</") (cstr "<") stream := by
  unfold recvXml
  induction junk with
  | nil => rfl
  | cons c junk ih =>
      have hc : c ≠ chr '<' := fun heq => hjunk (heq ▸ List.mem_cons_self)
      rw [List.cons_append, recvXmlLoop, if_neg hc]
      exact ih fun hmem => hjunk (List.mem_cons_of_mem c hmem)

/-- The name is copied into the tag as long as there is room for it. -/
theorem recvXmlLoop_name (hstop : ∀ c ∈ name, c ≠ chr ' ' ∧ c ≠ chr '>') (hzero : 0 ∉ name)
    (hroom : tag.length + name.length + 1 ≤ 256) (reply stream : Bytes) :
    recvXmlLoop .inName tag reply (name ++ stream) =
      recvXmlLoop .inName (tag ++ name) (reply ++ name) stream := by
  induction name generalizing tag reply with
  | nil => simp only [List.nil_append, List.append_nil]
  | cons c name ih =>
      rw [List.length_cons] at hroom
      obtain ⟨hblank, hend⟩ := hstop c List.mem_cons_self
      have hc : cString [c] = [c] := cString_eq_self fun hmem =>
        hzero (List.mem_singleton.1 hmem ▸ List.mem_cons_self)
      have hlength : (tag ++ [c]).length = tag.length + 1 := List.length_append
      have hrest := @ih (tag ++ [c]) (fun d hd => hstop d (List.mem_cons_of_mem c hd))
        (fun hmem => hzero (List.mem_cons_of_mem c hmem)) (by omega) (reply ++ [c])
      rw [List.cons_append, recvXmlLoop, if_neg (not_or.2 ⟨hblank, hend⟩), hc, if_pos (by omega),
        hrest, List.append_assoc, List.append_assoc]
      rfl

theorem recvXmlLoop_overflow {c : UInt8} (hroom : 255 ≤ tag.length) (hzero : c ≠ 0)
    (reply stream : Bytes) : recvXmlLoop .inName tag reply (c :: stream) = .overflow := by
  have hc : cString [c] = [c] := cString_eq_self fun hmem => hzero (List.mem_singleton.1 hmem).symm
  have hlength : ∀ d : Bytes, d.length = 1 → ¬ (tag ++ d).length + 1 ≤ 256 := by
    intro d hd
    rw [List.length_append]
    omega
  rw [recvXmlLoop, hc]
  split
  · exact if_neg (hlength _ rfl)
  · exact if_neg (hlength _ rfl)

/-- What is returned and what is left are what there was, and something has been read. -/
theorem recvXmlLoop_returned {state : TagState} {reply' rest : Bytes} (hstate : state ≠ .outside)
    (h : recvXmlLoop state tag reply stream = .returned reply' rest) :
    reply' ++ rest = reply ++ stream ∧ reply.length < reply'.length := by
  induction stream generalizing state tag reply with
  | nil =>
      cases state <;> cases h
  | cons c stream ih =>
      have hnext : ∀ {state' tag'}, state' ≠ .outside →
          recvXmlLoop state' tag' (reply ++ [c]) stream = .returned reply' rest →
          reply' ++ rest = reply ++ c :: stream ∧ reply.length < reply'.length := by
        intro state' tag' hstate' h'
        obtain ⟨htext, hlength⟩ := ih hstate' h'
        rw [List.append_assoc] at htext
        rw [List.length_append] at hlength
        exact ⟨htext, by omega⟩
      cases state with
      | outside => exact absurd rfl hstate
      | inName =>
          rw [recvXmlLoop] at h
          split_ifs at h
          · exact hnext (by decide) h
          · exact hnext (by decide) h
      | inElement =>
          rw [recvXmlLoop] at h
          split_ifs at h
          · cases h
            rw [List.append_assoc, List.length_append]
            exact ⟨rfl, Nat.lt_succ_self _⟩
          · exact hnext (by decide) h

/-- Behind the start of the tag exactly `u` is read when the end tag stands at its end only. -/
theorem recvXmlLoop_element (hzero : 0 ∉ reply ++ u) (hreply : ¬ tag <:+: reply) (more : Bytes) :
    recvXmlLoop .inElement tag reply (u ++ more) = .returned (reply ++ u) more ↔
      tag <:+: reply ++ u ∧ ¬ tag <:+: reply ++ u.dropLast := by
  induction u generalizing reply with
  | nil =>
      rw [List.append_nil, List.nil_append, List.dropLast_nil, List.append_nil]
      refine iff_of_false (fun h => ?_) fun h => h.2 h.1
      have hlength := (recvXmlLoop_returned (by decide) h).2
      omega
  | cons c u ih =>
      have htext : reply ++ c :: u = reply ++ [c] ++ u := by
        rw [List.append_assoc]
        rfl
      rw [htext] at hzero ⊢
      have hstart : cString (reply ++ [c]) = reply ++ [c] :=
        cString_eq_self fun hmem => hzero (List.mem_append_left u hmem)
      rw [List.cons_append, recvXmlLoop, hstart]
      by_cases hfound : tag <:+: reply ++ [c]
      · rw [if_pos (Substrings.behind_isSome.2 hfound)]
        cases u with
        | nil =>
            rw [List.append_nil, List.nil_append, List.dropLast_singleton, List.append_nil]
            exact iff_of_true rfl ⟨hfound, hreply⟩
        | cons d u =>
            refine iff_of_false (fun h => ?_) fun h => h.2 ?_
            · have hlength := congrArg List.length (XmlResult.returned.inj h).1
              simp only [List.length_append, List.length_cons, List.length_nil] at hlength
              omega
            · rw [List.dropLast_cons_of_ne_nil (List.cons_ne_nil d u), ← List.singleton_append,
                ← List.append_assoc]
              exact hfound.trans (List.infix_append' [] _ _)
      · rw [if_neg fun h => hfound (Substrings.behind_isSome.1 h), ih hzero hfound]
        cases u with
        | nil =>
            rw [List.append_nil]
            exact iff_of_false (fun h => hfound h.1) fun h => hfound h.1
        | cons d u =>
            rw [List.dropLast_cons_of_ne_nil (List.cons_ne_nil d u),
              List.append_cons reply c (d :: u).dropLast]

/-- A text stands in front of the end only when it is no part of what is in front of the last
byte. -/
theorem infix_iff_suffix {pat : Bytes} (hfirst : ¬ pat <:+: t.dropLast) :
    pat <:+: t ↔ pat <:+ t := by
  refine ⟨fun h => ?_, List.IsSuffix.isInfix⟩
  rcases List.eq_nil_or_concat t with rfl | ⟨u, c, rfl⟩
  · exact List.infix_nil.1 h ▸ List.suffix_rfl
  · rw [List.concat_eq_append] at h hfirst ⊢
    rw [List.dropLast_concat] at hfirst
    exact (List.infix_concat_iff.1 h).resolve_right hfirst

theorem startName_eq {c : UInt8} (hstop : ∀ d ∈ name, d ≠ chr ' ' ∧ d ≠ chr '>')
    (hc : c = chr ' ' ∨ c = chr '>') (u : Bytes) :
    startName (chr '<' :: (name ++ c :: u)) = name := by
  have hstopped : ¬ (c ≠ chr ' ' ∧ c ≠ chr '>') := fun h => hc.elim h.1 h.2
  have hname : ∀ d ∈ name, decide (d ≠ chr ' ' ∧ d ≠ chr '>') = true := fun d hd =>
    decide_eq_true (hstop d hd)
  rw [startName, List.tail_cons, List.takeWhile_append_of_pos hname, List.takeWhile_cons,
    decide_eq_false hstopped]
  exact List.append_nil _

theorem exists_startName (hend : chr '>' ∈ t) : ∃ name c u, t = name ++ c :: u ∧
    (∀ d ∈ name, d ≠ chr ' ' ∧ d ≠ chr '>') ∧ (c = chr ' ' ∨ c = chr '>') := by
  induction t with
  | nil => exact absurd hend List.not_mem_nil
  | cons c t ih =>
      by_cases hc : c = chr ' ' ∨ c = chr '>'
      · exact ⟨[], c, t, rfl, List.forall_mem_nil _, hc⟩
      · have hrest : chr '>' ∈ t := (List.mem_cons.1 hend).resolve_left fun h => hc (.inr h.symm)
        obtain ⟨name, d, u, rfl, hstop, hd⟩ := ih hrest
        exact ⟨c :: name, d, u, rfl, List.forall_mem_cons.2 ⟨not_or.1 hc, hstop⟩, hd⟩

/-- A name that fits into the tag: the element is returned when the end tag is its end and does not
stand in front of that. -/
theorem recvXml_short {c : UInt8} (hstop : ∀ d ∈ name, d ≠ chr ' ' ∧ d ≠ chr '>')
    (hc : c = chr ' ' ∨ c = chr '>') (hzero : 0 ∉ name ++ c :: u) (hshort : name.length ≤ 252)
    (more : Bytes) :
    recvXmlLoop .inName (cstr "</") (cstr "<") (name ++ c :: (u ++ more)) =
        .returned (chr '<' :: (name ++ c :: u)) more ↔
      closingTag name <:+ chr '<' :: (name ++ c :: u) ∧
        ¬ closingTag name <:+: (chr '<' :: (name ++ c :: u)).dropLast := by
  have htext : chr '<' :: (name ++ c :: u) = cstr "<" ++ name ++ [c] ++ u := by
    rw [List.append_assoc]
    rfl
  have htag : cstr "</" ++ name ++ cstr ">" = closingTag name := List.append_assoc _ _ _
  have hlength : (closingTag name).length = name.length + 3 := by
    rw [closingTag, List.length_append, List.length_append, Nat.add_comm]
    rfl
  have hopen : (cstr "</").length + name.length + 1 ≤ 256 := by
    rw [show (cstr "</").length = 2 from rfl]
    omega
  have hreply : ¬ closingTag name <:+: cstr "<" ++ name ++ [c] := by
    intro h
    have hle := h.length_le
    rw [hlength, List.length_append, List.length_append, Nat.add_comm (cstr "<").length] at hle
    exact Nat.not_succ_le_self _ hle
  have hwhole : 0 ∉ cstr "<" ++ name ++ [c] ++ u := by
    rw [← htext]
    exact fun hmem => (List.mem_cons.1 hmem).elim (by decide) hzero
  rw [recvXmlLoop_name hstop (fun hmem => hzero (List.mem_append_left _ hmem)) hopen, recvXmlLoop,
    if_pos hc, htag, if_pos (by omega), htext, recvXmlLoop_element hwhole hreply]
  cases u with
  | nil =>
      rw [List.dropLast_nil, List.append_nil]
      exact iff_of_false (fun h => h.2 h.1) fun h => hreply h.1.isInfix
  | cons d u =>
      rw [← List.dropLast_append_of_ne_nil (List.cons_ne_nil d u)]
      exact and_congr_left infix_iff_suffix

/-- A longer one is written behind the end of the tag. -/
theorem recvXml_long {c : UInt8} (hstop : ∀ d ∈ name, d ≠ chr ' ' ∧ d ≠ chr '>')
    (hzero : 0 ∉ name) (hc : c ≠ 0) (hlong : 255 ≤ tag.length + name.length)
    (reply stream : Bytes) : recvXmlLoop .inName tag reply (name ++ c :: stream) = .overflow := by
  induction name generalizing tag reply with
  | nil => exact recvXmlLoop_overflow hlong hc reply stream
  | cons d name ih =>
      obtain ⟨hd, hzero⟩ := not_or.1 (mt List.mem_cons.2 hzero)
      by_cases hroom : 255 ≤ tag.length
      · exact recvXmlLoop_overflow hroom (Ne.symm hd) reply _
      · have hbyte : cString [d] = [d] := cString_eq_self fun hmem => hd (List.mem_singleton.1 hmem)
        have hlength : (tag ++ [d]).length = tag.length + 1 := List.length_append
        rw [List.length_cons] at hlong
        rw [List.cons_append, recvXmlLoop, hbyte,
          if_neg (not_or.2 (hstop d List.mem_cons_self)), if_pos (by omega)]
        exact ih (fun e he => hstop e (List.mem_cons_of_mem d he)) hzero (by omega) _

theorem xmlPlain_iff (element : Bytes) (h : startName element = name) :
    XmlPlain element ↔ name.length ≤ 252 ∧ closingTag name <:+ element ∧
      ¬ closingTag name <:+: element.dropLast := by
  subst h
  exact ⟨fun h => ⟨h.short, h.ends, h.first⟩, fun h => ⟨h.1, h.2.1, h.2.2⟩⟩

/-- The element is returned when it is plain. -/
theorem recvXml_iff (hjunk : chr '<' ∉ junk) (hzero : 0 ∉ t) (hend : chr '>' ∈ t) (more : Bytes) :
    recvXml (junk ++ chr '<' :: (t ++ more)) = .returned (chr '<' :: t) more ↔
      XmlPlain (chr '<' :: t) := by
  obtain ⟨name, c, u, rfl, hstop, hc⟩ := exists_startName hend
  rw [recvXml_outside hjunk, List.append_assoc, xmlPlain_iff _ (startName_eq hstop hc u)]
  by_cases hshort : name.length ≤ 252
  · rw [List.cons_append, recvXml_short hstop hc hzero hshort]
    exact (and_iff_right hshort).symm
  · obtain ⟨hname, hc'⟩ := not_or.1 (mt List.mem_append.2 hzero)
    have hne : c ≠ 0 := fun h => hc' (h ▸ List.mem_cons_self)
    have hlong : 255 ≤ (cstr "</").length + name.length := by
      rw [show (cstr "</").length = 2 from rfl]
      omega
    rw [List.cons_append, recvXml_long hstop hname hne hlong]
    exact iff_of_false (fun h => by cases h) fun h => hshort h.1

end

/-- Every well-formed element behind other bytes: it is returned as it stands, and nothing behind
it is read, exactly when it is plain. -/
theorem recv_xml_right_iff {junk element name : Bytes} (hjunk : chr '<' ∉ junk)
    (h : Xml (.element name) element) (more : Bytes) :
    recvXml (junk ++ (element ++ more)) = .returned element more ↔ XmlPlain element := by
  have hzero := h.noZero
  obtain ⟨t, rfl, hend⟩ := h.element_text
  exact recvXml_iff hjunk (fun hmem => hzero (List.mem_cons_of_mem _ hmem)) hend more

theorem xmlName_a : XmlName (cstr "a") where
  ne := List.cons_ne_nil _ _
  bytes := List.forall_mem_singleton.2 (by unfold XmlSpace; decide)

theorem xmlName_b : XmlName (cstr "b") where
  ne := List.cons_ne_nil _ _
  bytes := List.forall_mem_singleton.2 (by unfold XmlSpace; decide)

theorem xmlAttributes_b : XmlAttributes (cstr " b=\"1\"") :=
  @XmlAttributes.cons [chr ' '] (cstr "b") [] [] (cstr "1") [] (chr '"') (List.cons_ne_nil _ _)
    (List.forall_mem_singleton.2 (.inl rfl)) xmlName_b (List.forall_mem_nil _)
    (List.forall_mem_nil _) (.inl rfl) (List.forall_mem_singleton.2 (by decide))
    (.space (List.forall_mem_nil _))

/-- An element with text and another element in it is returned. -/
theorem recv_xml_right_nested :
    recvXml (cstr "ok" ++ (cstr "<a b=\"1\">x<b>y</b></a>" ++ cstr "<c/>")) =
      .returned (cstr "<a b=\"1\">x<b>y</b></a>") (cstr "<c/>") := by
  have hinner : Xml (.element (cstr "b")) (cstr "<b>y</b>") :=
    Xml.full xmlName_b (.space (List.forall_mem_nil _)) (.text (by decide) (by decide) .nil)
      (List.forall_mem_nil _)
  have houter : Xml (.element (cstr "a")) (cstr "<a b=\"1\">x<b>y</b></a>") :=
    Xml.full xmlName_a xmlAttributes_b (.text (by decide) (by decide) (.child hinner .nil))
      (List.forall_mem_nil _)
  have hplain : XmlPlain (cstr "<a b=\"1\">x<b>y</b></a>") :=
    ⟨by decide, by decide, by decide⟩
  exact (recv_xml_right_iff (by decide) houter _).2 hplain

/-- `<a><a></a></a>` is cut behind its inner element. -/
theorem recv_xml_not_always_right :
    ¬ ∀ junk element name more : Bytes, chr '<' ∉ junk → Xml (.element name) element →
      recvXml (junk ++ (element ++ more)) = .returned element more := by
  intro h
  have hinner : Xml (.element (cstr "a")) (cstr "<a></a>") :=
    Xml.full xmlName_a (.space (List.forall_mem_nil _)) .nil (List.forall_mem_nil _)
  have houter : Xml (.element (cstr "a")) (cstr "<a><a></a></a>") :=
    Xml.full xmlName_a (.space (List.forall_mem_nil _)) (.child hinner .nil)
      (List.forall_mem_nil _)
  exact absurd (h [] _ _ [] List.not_mem_nil houter) (by decide)

end ScOpen
