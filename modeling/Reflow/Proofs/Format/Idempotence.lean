import Reflow.Proofs.Format.Whitespace
import Reflow.Proofs.Markup.Texts

/-!
# Proofs/Format/Idempotence — text that is formatted already

A text that has been set in lines is other nodes than before: texts with line breaks in them, and
spaces spelled out (`Node.ofBody`).  They are laid out as the text was, and so its element is
formatted to the same output again (`Node.format_format`).
-/

namespace Reflow

open Dialogue
open Lexeme (spelling Gap)
open Reflow.Part (Lead Trail AtMostBreak arrange ofWords)
open Piece (IsBreak)
open Text (IsBlankRun IsWord Joined)

namespace Node

/-! ## The nodes of a body -/

/-- A space spelled out, as a node. -/
def spelledSpace (q : Quote) : Node :=
  container (.filled (.foreign ⟨.stringLiteral " ", String.ofList [q.char, ' ', q.char], []⟩))

/-- A character of text **in front of** nodes: it joins the text they start with. -/
def push (c : Char) : List Node → List Node
  | text raw :: nodes => text (String.ofList (c :: raw.toList)) :: nodes
  | nodes => text (String.ofList [c]) :: nodes

/-- The quote of the space that stands here, if one is spelled out. -/
def quoteAhead? (cs : List Char) : Option Quote :=
  if (spelling .double).isPrefixOf cs then some .double
  else if (spelling .single).isPrefixOf cs then some .single else none

/-- The **nodes of a body** that holds text and spaces spelled out, in either quote.  The first
`skip` characters belong to a space that has been found already. -/
def ofBody (skip : Nat) : List Char → List Node
  | [] => []
  | c :: cs =>
    match skip with
    | skip + 1 => ofBody skip cs
    | 0 =>
      match quoteAhead? (c :: cs) with
      | some q => spelledSpace q :: ofBody 4 cs
      | none => push c (ofBody 0 cs)

/-- The children that nodes are if they are all text to their neighbours. -/
def texts (nodes : List Node) : List Child := nodes.filterMap fun node => node.asText?.map .text

/-- Where no text goes on. -/
def EndsText (cs : List Char) : Prop := cs = [] ∨ ∃ q later, cs = spelling q ++ later

variable {σ ε : Type} {host : Host σ ε} {o : LanguageOptions} {ancestors : Ancestors}

theorem always_texts {nodes : List Node} (h : ∀ node ∈ nodes, ∃ raw, node.asText? = some raw) :
    (children o ancestors nodes).Always host (· = texts nodes) := by
  induction nodes with
  | nil =>
    rw [children]
    exact always_done rfl
  | cons node nodes ih =>
    obtain ⟨⟨raw, hraw⟩, hnodes⟩ := List.forall_mem_cons.mp h
    rw [children, hraw]
    refine always_bind (always_done (always_bind ((ih hnodes).imp ?_)))
    rintro _ rfl
    refine always_done ?_
    rw [texts, texts, List.filterMap_cons, hraw]
    rfl

theorem asText?_push (c : Char) {nodes : List Node}
    (h : ∀ node ∈ nodes, ∃ raw, node.asText? = some raw) :
    ∀ node ∈ push c nodes, ∃ raw, node.asText? = some raw := by
  unfold push
  split
  · exact List.forall_mem_cons.mpr ⟨⟨_, rfl⟩, (List.forall_mem_cons.mp h).2⟩
  · exact List.forall_mem_cons.mpr ⟨⟨_, rfl⟩, h⟩

/-- All of a body is text to its neighbours. -/
theorem asText?_ofBody (skip : Nat) (cs : List Char) :
    ∀ node ∈ ofBody skip cs, ∃ raw, node.asText? = some raw := by
  induction cs generalizing skip with
  | nil => simp [ofBody]
  | cons c cs ih =>
    rcases skip with _ | skip
    · rw [ofBody]
      split
      · exact List.forall_mem_cons.mpr ⟨⟨" ", rfl⟩, ih 4⟩
      · exact asText?_push c (ih 0)
    · exact ih skip

theorem ofBody_skip (xs ys : List Char) : ofBody xs.length (xs ++ ys) = ofBody 0 ys := by
  induction xs with
  | nil => rfl
  | cons x xs ih => rw [List.length_cons, List.cons_append, ofBody, ih]

theorem quoteAhead?_spelling (q : Quote) (cs : List Char) :
    quoteAhead? (spelling q ++ cs) = some q := by
  cases q <;> rfl

theorem ofBody_spelling (q : Quote) (cs : List Char) :
    ofBody 0 (spelling q ++ cs) = spelledSpace q :: ofBody 0 cs := by
  have hquote := quoteAhead?_spelling q cs
  have hskip := ofBody_skip [q.char, ' ', q.char, '}'] cs
  rw [spelling, List.cons_append] at hquote ⊢
  simp only [ofBody, hquote]
  exact congrArg _ hskip

theorem quoteAhead?_eq_none {c : Char} (h : c ≠ '{') (cs : List Char) :
    quoteAhead? (c :: cs) = none := by
  have hspelling (q : Quote) : ¬ (spelling q).isPrefixOf (c :: cs) = true := by
    rw [List.isPrefixOf_iff_prefix]
    exact Lexeme.not_spelling_isPrefix h q cs
  rw [quoteAhead?, if_neg (hspelling .double), if_neg (hspelling .single)]

theorem push_ofBody {rest : List Char} (h : EndsText rest) (c : Char) :
    push c (ofBody 0 rest) = text (String.ofList [c]) :: ofBody 0 rest := by
  obtain rfl | ⟨q, later, rfl⟩ := h
  · rfl
  · rw [ofBody_spelling]
    rfl

/-- Characters up to where no text goes on are **one text**. -/
theorem ofBody_text {xs rest : List Char} (hne : xs ≠ []) (h : '{' ∉ xs) (hrest : EndsText rest) :
    ofBody 0 (xs ++ rest) = text (String.ofList xs) :: ofBody 0 rest := by
  induction xs with
  | nil => exact absurd rfl hne
  | cons c xs ih =>
    obtain ⟨hc, hxs⟩ := not_or.mp (fun hmem => h (List.mem_cons.mpr hmem))
    have hquote := quoteAhead?_eq_none (Ne.symm hc) (xs ++ rest)
    simp only [List.cons_append, ofBody, hquote]
    rcases xs with _ | ⟨d, xs⟩
    · exact push_ofBody hrest c
    · rw [ih (by simp) hxs, push, String.toList_ofList]

theorem texts_text {xs rest : List Char} (hne : xs ≠ []) (h : '{' ∉ xs) (hrest : EndsText rest) :
    texts (ofBody 0 (xs ++ rest)) = .text (String.ofList xs) :: texts (ofBody 0 rest) := by
  rw [ofBody_text hne h hrest]
  rfl

theorem texts_spelling (q : Quote) (cs : List Char) :
    texts (ofBody 0 (spelling q ++ cs)) = .text " " :: texts (ofBody 0 cs) := by
  rw [ofBody_spelling]
  rfl

/-! ## What stands around the words

The gaps before and after the words are other nodes now, which say the same about a space. -/

theorem not_mem_of_isBlankRun {run : List Char} (h : IsBlankRun run) : '{' ∉ run := fun hmem =>
  absurd (h _ hmem) (by decide)

theorem not_mem_of_joined {ws : List String} {cs : List Char} (h : Joined ws cs)
    (hws : ∀ w ∈ ws, '{' ∉ w.toList) : '{' ∉ cs := by
  induction h with
  | single => exact hws _ List.mem_cons_self
  | cons _ blank _ _ ih =>
    obtain ⟨hw, hws⟩ := List.forall_mem_cons.mp hws
    simp only [List.mem_append, not_or]
    exact ⟨⟨hw, not_mem_of_isBlankRun blank⟩, ih hws⟩

/-- Nothing or a line break is no space. -/
theorem edge_of_break {run : List Char} (h : run = [] ∨ IsBreak run) :
    IsBlankRun run ∧ decide (Whitespace.ofEdge? run = some .space) = false := by
  obtain rfl | h := h
  · exact ⟨by simp [IsBlankRun], rfl⟩
  · refine ⟨h.2, decide_eq_false ?_⟩
    rw [Whitespace.ofEdge?, if_neg (by simpa using List.ne_nil_of_mem h.1), Option.some.injEq,
      Whitespace.ofRun_eq_space_iff]
    exact fun hnone => hnone h.1

theorem isBlankRun_space : IsBlankRun [' '] := by
  intro c hc
  rw [List.mem_singleton.mp hc]
  rfl

/-- A space spelled out before a line break **ends the text** in front of it. -/
theorem texts_break_spelling {run : List Char} (h : IsBreak run) (q : Quote) (cs : List Char) :
    texts (ofBody 0 (run ++ spelling q ++ cs)) =
      .text (String.ofList run) :: .text " " :: texts (ofBody 0 cs) := by
  rw [List.append_assoc, texts_text (List.ne_nil_of_mem h.1) (not_mem_of_isBlankRun h.2)
    (.inr ⟨q, cs, rfl⟩), texts_spelling]

theorem texts_break {run : List Char} (h : IsBreak run) :
    texts (ofBody 0 run) = [.text (String.ofList run)] := by
  have htext := texts_text (List.ne_nil_of_mem h.1) (not_mem_of_isBlankRun h.2) (.inl rfl)
  rwa [List.append_nil] at htext

variable {q : Quote} {space : Bool}

/-- The gap **before the words**, as nodes. -/
theorem exists_lead {lead : List Char} (h : Gap q false space true lead) :
    ∃ before leading, Lead space before leading ∧ ∀ xs rest, xs ≠ [] → '{' ∉ xs → EndsText rest →
      texts (ofBody 0 (lead ++ (xs ++ rest))) =
        before ++ .text (String.ofList (leading ++ xs)) :: texts (ofBody 0 rest) := by
  have hjoin {run xs : List Char} (rest : List Char) (hrun : IsBlankRun run) (hne : xs ≠ [])
      (hxs : '{' ∉ xs) (hrest : EndsText rest) : texts (ofBody 0 (run ++ (xs ++ rest))) =
        .text (String.ofList (run ++ xs)) :: texts (ofBody 0 rest) := by
    rw [← List.append_assoc]
    refine texts_text (by simp [hne]) ?_ hrest
    rw [List.mem_append, not_or]
    exact ⟨not_mem_of_isBlankRun hrun, hxs⟩
  cases h with
  | none h _ =>
    obtain ⟨hblank, hnone⟩ := edge_of_break h
    have hlead := Lead.edge hblank
    rw [hnone] at hlead
    exact ⟨[], lead, hlead, fun xs rest => hjoin rest hblank⟩
  | plain =>
    exact ⟨[], [' '], .edge isBlankRun_space, fun xs rest => hjoin rest isBlankRun_space⟩
  | @spelled run later _ _ h hlater =>
    obtain rfl | h := h
    · refine ⟨[.text " "], later, .spelled hlater.2, fun xs rest hne hxs hrest => ?_⟩
      rw [List.nil_append, List.append_assoc, texts_spelling, hjoin rest hlater.2 hne hxs hrest]
      rfl
    · refine ⟨[.text (String.ofList run), .text " "], later, .spelledApart h hlater.2,
        fun xs rest hne hxs hrest => ?_⟩
      rw [List.append_assoc (run ++ spelling q), texts_break_spelling h,
        hjoin rest hlater.2 hne hxs hrest]
      rfl

/-- The gap **after the words**, as nodes. -/
theorem exists_trail {tail : List Char} (h : Gap q true space false tail) :
    ∃ trailing rest, tail = trailing ++ rest ∧ EndsText rest ∧
      Trail space (texts (ofBody 0 rest)) trailing := by
  cases h with
  | none h _ =>
    obtain ⟨hblank, hnone⟩ := edge_of_break h
    have htrail := Trail.edge hblank
    rw [hnone] at htrail
    exact ⟨tail, [], (List.append_nil tail).symm, .inl rfl, htrail⟩
  | plain => exact ⟨[' '], [], rfl, .inl rfl, .edge isBlankRun_space⟩
  | @spelled run later _ _ h hlater =>
    refine ⟨run, spelling q ++ later, List.append_assoc .., .inr ⟨q, later, rfl⟩, ?_⟩
    rw [texts_spelling, texts_break hlater]
    exact .spelled (edge_of_break h).1 hlater

/-- A **space alone**, as nodes. -/
theorem exists_alone {cs : List Char} (h : Gap q false true false cs) :
    ∃ before after, AtMostBreak before ∧ AtMostBreak after ∧
      texts (ofBody 0 cs) = before ++ .text " " :: after := by
  cases h with
  | plain => exact ⟨[], [], .none, .none, rfl⟩
  | @spelled run later _ _ h hlater =>
    obtain rfl | h := h
    · refine ⟨[], _, .none, .some hlater, ?_⟩
      rw [List.nil_append, texts_spelling, texts_break hlater]
      rfl
    · refine ⟨_, _, .some h, .some hlater, ?_⟩
      rw [texts_break_spelling h, texts_break hlater]
      rfl

theorem isText_texts (nodes : List Node) : ∀ child ∈ texts nodes, ∃ raw, child = .text raw := by
  intro child hchild
  obtain ⟨node, -, hnode⟩ := List.mem_filterMap.mp hchild
  obtain ⟨raw, -, rfl⟩ := Option.map_eq_some_iff.mp hnode
  exact ⟨raw, rfl⟩

end Node

/-! ## The document of texts -/

namespace Shell

variable {o : LanguageOptions} {shell : Shell} {children children' : List Child}

theorem doc_of_texts (isEmbedded : Bool) (hc : ∀ child ∈ children, ∃ raw, child = .text raw)
    (htext : children.any Child.isMeaningfulText = true) :
    shell.doc o isEmbedded children = shell.around o isEmbedded children := by
  have hcontent : Child.noContent children = false := by
    unfold Child.noContent
    split
    · cases htext
    · simpa [Child.isMeaningfulText] using htext
    · rfl
  rw [doc.eq_def, hcontent, Bool.and_false, if_neg Bool.false_ne_true]
  split
  · obtain ⟨raw, hraw⟩ := hc _ List.mem_cons_self
    cases hraw
  · rfl

/-- Of texts alone the document says **no more than how they are arranged**. -/
theorem doc_eq_of_arrange_eq (isEmbedded : Bool) (hc : ∀ child ∈ children, ∃ raw, child = .text raw)
    (hc' : ∀ child ∈ children', ∃ raw, child = .text raw)
    (htext : children.any Child.isMeaningfulText = true)
    (htext' : children'.any Child.isMeaningfulText = true)
    (h : arrange shell.isLocalized true children = arrange shell.isLocalized true children') :
    shell.doc o isEmbedded children = shell.doc o isEmbedded children' := by
  have hmarkup {children : List Child} (hc : ∀ child ∈ children, ∃ raw, child = .text raw) :
      children.any Child.isMarkup = false ∧ children.countP Child.isContainer = 0 := by
    rw [List.any_eq_false, List.countP_eq_zero]
    constructor
    · intro child hchild
      obtain ⟨raw, rfl⟩ := hc child hchild
      exact Bool.false_ne_true
    · intro child hchild
      obtain ⟨raw, rfl⟩ := hc child hchild
      exact Bool.false_ne_true
  rw [doc_of_texts isEmbedded hc htext, doc_of_texts isEmbedded hc' htext']
  simp only [around, mustBreak, htext, htext', h, hmarkup hc, hmarkup hc']

/-- A text among texts that counts makes them count, if all of them are arranged alike. -/
theorem doc_eq_of_texts (isEmbedded : Bool) {raw raw' : String} {before after : List Child}
    (hraw : Text.isMeaningful raw = true) (hraw' : Text.isMeaningful raw' = true)
    (hc : ∀ child ∈ before ++ .text raw' :: after, ∃ raw, child = .text raw)
    (h : arrange shell.isLocalized true (before ++ .text raw' :: after) =
      arrange shell.isLocalized true [.text raw]) :
    shell.doc o isEmbedded (before ++ .text raw' :: after) =
      shell.doc o isEmbedded [.text raw] := by
  refine doc_eq_of_arrange_eq isEmbedded hc (List.forall_mem_singleton.mpr ⟨raw, rfl⟩) ?_ ?_ h
  · rw [List.any_append, List.any_cons, Child.isMeaningfulText, hraw', Bool.true_or, Bool.or_true]
  · rw [List.any_cons, Child.isMeaningfulText, hraw, Bool.true_or]

/-! ## Text that is set in lines already -/

variable {q : Quote} {raw : String} {body : List Char}

/-- Blanks that are a space are **one space spelled out or not**. -/
theorem doc_texts_of_space (hspace : TextContent.ofText raw = .blank .space)
    (h : Part.Body q (arrange shell.isLocalized true [.text raw]) body) :
    shell.doc o false (Node.texts (Node.ofBody 0 body)) = shell.doc o false [.text raw] := by
  have hmeaning {raw : String} (hspace : TextContent.ofText raw = .blank .space) :
      Text.isMeaningful raw = true :=
    TextContent.isMeaningful_of_ofText hspace fun run hspans heq => by
      rw [← TextContent.blank.inj heq] at hspans
      exact Bool.false_ne_true hspans
  have harrange : arrange shell.isLocalized true [.text raw] = [.empty, .space] :=
    Part.arrange_space shell.isLocalized hspace .none .none
  rw [harrange] at h
  obtain ⟨before, after, hbefore, hafter, hnodes⟩ := Node.exists_alone h.gap
  have htexts := Node.isText_texts (Node.ofBody 0 body)
  rw [hnodes] at htexts ⊢
  refine doc_eq_of_texts false (hmeaning hspace) (hmeaning Part.ofText_space) htexts ?_
  rw [harrange, Part.arrange_space _ Part.ofText_space hbefore hafter]

/-- Words between gaps are laid out as **the words of the text**. -/
theorem doc_texts_of_words {leading inner trailing : List Char} {ws : List String}
    (hsplit : raw.toList = leading ++ inner ++ trailing) (hl : IsBlankRun leading)
    (ht : IsBlankRun trailing) (hjoined : Joined ws inner) (hraw : '{' ∉ raw.toList)
    (h : Part.Body q (arrange shell.isLocalized true [.text raw]) body) :
    shell.doc o false (Node.texts (Node.ofBody 0 body)) = shell.doc o false [.text raw] := by
  have hmeaning {raw : String} {leading inner trailing : List Char}
      (hsplit : raw.toList = leading ++ inner ++ trailing) (hl : IsBlankRun leading)
      (ht : IsBlankRun trailing) (hjoined : Joined ws inner) : Text.isMeaningful raw = true :=
    TextContent.isMeaningful_of_ofText (TextContent.ofText_of_joined hsplit hl ht hjoined) (by simp)
  have harrange := Part.arrange_texts shell.isLocalized (.edge hl) hjoined (.edge ht)
  rw [List.nil_append, ← hsplit, String.ofList_toList] at harrange
  rw [harrange] at h
  have hws := hjoined.forall_isWord
  have hplain : ∀ w ∈ ws, '{' ∉ w.toList := fun w hw hmem => by
    refine hraw ?_
    rw [hsplit, List.append_assoc]
    exact List.mem_append_right _ (List.mem_append_left _ ((hws w hw).2 _ hmem))
  -- the words are joined in another way, between other blanks
  obtain ⟨lead, inner', tail, rfl, hlead, hjoined', htail⟩ :=
    h.exists_joined (fun w hw => (hws w hw).1) hjoined.ne_nil
  obtain ⟨before, leading', hbefore, hnodes⟩ := Node.exists_lead hlead
  obtain ⟨trailing', rest, rfl, hends, hafter⟩ := Node.exists_trail htail
  obtain ⟨c, front, hcons, -⟩ := hjoined'.exists_eq_cons
  have hbody := hnodes (inner' ++ trailing') rest (by simp [hcons]) (by
    rw [List.mem_append, not_or]
    exact ⟨Node.not_mem_of_joined hjoined' hplain, Node.not_mem_of_isBlankRun hafter.isBlankRun⟩)
      hends
  rw [List.append_assoc, ← List.append_assoc leading'] at hbody
  have htexts := Node.isText_texts (Node.ofBody 0 (lead ++ (inner' ++ (trailing' ++ rest))))
  rw [hbody] at htexts ⊢
  refine doc_eq_of_texts false (hmeaning hsplit hl ht hjoined)
    (hmeaning String.toList_ofList hbefore.isBlankRun hafter.isBlankRun hjoined') htexts ?_
  rw [harrange, Part.arrange_texts shell.isLocalized hbefore hjoined' hafter]

/-- Where nothing is laid out, **nothing or a line break** is printed. -/
theorem noContent_texts (h : Part.Body q [] body) :
    Child.noContent (Node.texts (Node.ofBody 0 body)) = true := by
  have hbody : body = [] ∨ IsBreak body := by
    cases h with
    | onOneLine hrun =>
      cases hrun with
      | done hend => exact hend
    | onLines hlead hrun _ =>
      cases hrun with
      | done hend => exact .inr (Part.isBreak_append hlead hend)
  obtain rfl | hbreak := hbody
  · rfl
  · rw [Node.texts_break hbreak, Child.noContent, Bool.not_eq_true',
      TextContent.isMeaningful_eq_false_iff]
    refine ⟨_, Part.ofText_of_isBlankRun hbreak.2, ?_⟩
    rw [Whitespace.spansLines_eq_true_iff, ne_eq, Whitespace.ofRun_eq_space_iff]
    exact fun hno => hno hbreak.1

/-- A text that is set in lines, **taken for nodes again**, has the same document. -/
theorem doc_texts_ofBody (helement : shell.isElement = true) (hraw : '{' ∉ raw.toList)
    (h : Part.Body q
      (arrange shell.isLocalized ([Child.text raw].any Child.isMeaningfulText) [.text raw]) body) :
    shell.doc o false (Node.texts (Node.ofBody 0 body)) = shell.doc o false [.text raw] := by
  rw [List.any_cons, List.any_nil, Bool.or_false, Child.isMeaningfulText] at h
  by_cases hmeaning : Text.isMeaningful raw = true
  · rw [hmeaning] at h
    obtain ⟨-, hof⟩ | ⟨leading, ws, inner, trailing, hsplit, hl, ht, hjoined, -⟩ :=
      TextContent.ofText_cases raw
    · refine doc_texts_of_space (hof.trans ?_) h
      rw [TextContent.blank.injEq]
      by_contra hspans
      refine absurd hmeaning (Bool.eq_false_iff.mp ?_)
      rw [TextContent.isMeaningful_eq_false_iff]
      exact ⟨_, hof, (Whitespace.spansLines_eq_true_iff _).mpr hspans⟩
    · exact doc_texts_of_words hsplit hl ht hjoined hraw h
  · have hnone : Child.noContent [.text raw] = true := by
      simpa [Child.noContent] using hmeaning
    rw [arrange_of_noContent _ _ hnone] at h
    simp only [doc, hnone, noContent_texts h, helement, Bool.and_self, if_true]

end Shell

/-! ## Formatting -/

namespace Node

variable {σ ε : Type} {host : Host σ ε}

/-- **Formatting text is idempotent.**  What is printed between the tags of a plain element with one
text, taken for nodes again, is formatted to the same output. -/
theorem format_format (hhost : host.AddsNothing) {position : Position}
    (hparens : position.ancestors.AddNoParens) (hblock : position.isEmbedded = false) (o : Options)
    (hindent : 0 < o.layout.indentWidth) (name : String) (selfClosing : Bool)
    (closing : Option String) {raw : String} (hraw : '{' ∉ raw.toList) (s : σ) :
    ∃ body output,
      ((markup (.plain name selfClosing closing [text raw])).format host position o s).1 =
        .ok output ∧
      output.toList =
        OpeningTag.chars o.language name selfClosing ++ (body ++ Tag.closingChars closing) ∧
      ∀ s', ((markup (.plain name selfClosing closing (ofBody 0 body))).format
        host position o s').1 = .ok output := by
  have hdocument {nodes : List Node} (h : ∀ node ∈ nodes, ∃ raw, node.asText? = some raw) :=
    @Markup.always_plain _ _ host o.language _ hhost hparens name selfClosing position.isEmbedded
      closing _ _ (always_texts h)
  set shell := Shell.plain o.language name selfClosing closing
  obtain ⟨hopening, hclosing⟩ := Shell.suffixDepth_plain o.language name selfClosing closing
  have hone : ∀ node ∈ [text raw], ∃ raw, node.asText? = some raw :=
    List.forall_mem_singleton.mpr ⟨raw, rfl⟩
  obtain ⟨doc, ⟨children, rfl, rfl⟩, -, hformat⟩ := @exists_format_eq _ _ _ _ _
    (markup (.plain name selfClosing closing [text raw])) _ (hdocument hone) s
  rw [hblock] at hformat
  obtain ⟨output, houtput, hprints⟩ := Doc.exists_typeset_eq o.layout
    (shell.doc o.language false [.text raw]) (Shell.suffixDepth_doc hopening hclosing (by simp))
    hindent
  obtain ⟨body, hbody, hset⟩ :=
    Shell.prints_doc (Shell.printsTags_plain o.language name selfClosing closing) hprints
  refine ⟨body, output, hformat o.layout output houtput, hbody, fun s' => ?_⟩
  obtain ⟨doc, ⟨children, rfl, rfl⟩, -, hformat'⟩ := @exists_format_eq _ _ _ _ _
    (markup (.plain name selfClosing closing (ofBody 0 body))) _
    (hdocument (asText?_ofBody 0 body)) s'
  refine hformat' o.layout output ?_
  rw [hblock, Shell.doc_texts_ofBody rfl hraw hset, houtput]

/-- `<p>`, with a space before the text and a line break after it. -/
theorem format_format_greeting :
    '{' ∉ " Hello there\n".toList ∧ ∃ body output,
      ((markup (.plain "p" false (some "p") [text " Hello there\n"])).format
        Host.verbatim {} {} ()).1 = .ok output ∧
      output.toList = ['<', 'p', '>'] ++ (body ++ ['<', '/', 'p', '>']) ∧
      ∀ s', ((markup (.plain "p" false (some "p") (ofBody 0 body))).format
        Host.verbatim {} {} s').1 = .ok output :=
  ⟨by decide, format_format Host.addsNothing_verbatim Ancestors.addNoParens_nil rfl {}
    (by decide) "p" false (some "p") (by decide) ()⟩

end Node

end Reflow
