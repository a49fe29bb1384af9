import Mathlib.Data.List.Infix
import Mathlib.Tactic.SplitIfs
import Reflow.Text.Quote

/-!
# Proofs/Text/Quote — attribute strings keep their values

A string that is written out in a quote is read back as its value, for encoding puts no entity
together that was not there: an entity starts with an ampersand, and nothing of it is a quote
(`AttributeString.decode_encode_decode`).  So a string keeps its value when it is normalized, and
what is normal stays as it is (`AttributeString.normalize_keeps_value`).
-/

namespace Reflow

namespace Quote

theorem char_not_mem_entity (q q' : Quote) : q.char ∉ q'.entity.toList := by
  cases q <;> cases q' <;> decide

theorem toNat_char_lt (q : Quote) : q.char.toNat < 0x80 := by cases q <;> decide

/-- The preferred quote is chosen **unless the value holds strictly more of it**
than of the other. -/
theorem choose_eq_iff (preferred : Quote) (value : List Char) :
    preferred.choose value = preferred ↔
      value.count preferred.char ≤ value.count preferred.other.char := by
  have hne : preferred.other ≠ preferred := by cases preferred <;> decide
  rw [choose]
  split_ifs with h
  · exact ⟨fun heq => absurd heq hne, fun hle => absurd h (Nat.not_lt.mpr hle)⟩
  · exact ⟨fun _ => Nat.not_lt.mp h, fun _ => rfl⟩

end Quote

namespace AttributeString

/-! ## Reading from the front -/

theorem decode_entity (q : Quote) (cs : List Char) :
    decode (q.entity.toList ++ cs) = q.char :: decode cs := by
  cases q <;> exact rfl

/-- Where no entity stands, **a character is itself**. -/
theorem decode_cons {c : Char} {cs : List Char} (h : ∀ q : Quote, ¬ q.entity.toList <+: c :: cs) :
    decode (c :: cs) = c :: decode cs := by
  refine decode.eq_3 c cs (fun rest heq hrest => h .single ⟨rest, ?_⟩)
    (fun rest heq hrest => h .double ⟨rest, ?_⟩)
  · rw [heq, hrest]
    rfl
  · rw [heq, hrest]
    rfl

/-- A text starts with **an entity, or with a character** at which none stands. -/
theorem decode_induction {P : List Char → Prop} (nil : P [])
    (entity : ∀ (q : Quote) (cs : List Char), P cs → P (q.entity.toList ++ cs))
    (cons : ∀ (c : Char) (cs : List Char), (∀ q : Quote, ¬ q.entity.toList <+: c :: cs) → P cs →
      P (c :: cs)) (cs : List Char) : P cs := by
  induction cs using decode.induct with
  | case1 rest ih => exact entity .single rest ih
  | case2 rest ih => exact entity .double rest ih
  | case3 c rest hapos hquot ih =>
    refine cons c rest (fun q ⟨later, hlater⟩ => ?_) ih
    cases q with
    | double => exact hquot later (List.cons.inj hlater).1.symm (List.cons.inj hlater).2.symm
    | single => exact hapos later (List.cons.inj hlater).1.symm (List.cons.inj hlater).2.symm
  | case4 => exact nil

/-! ## What is in a string -/

theorem mem_body {c : Char} {raw : List Char} (h : c ∈ body raw) : c ∈ raw := by
  rw [body.eq_def] at h
  split at h
  · cases h
  · split at h
    · cases h
    · split_ifs at h
      · exact List.mem_cons_of_mem _ (List.dropLast_subset _ h)
      · cases h

theorem mem_decode {c : Char} {cs : List Char} (h : c ∈ decode cs) : c ∈ cs ∨ ∃ q :
    Quote, c = q.char := by
  induction cs using decode_induction with
  | nil => cases h
  | entity q cs ih =>
    rw [decode_entity] at h
    obtain rfl | h := List.mem_cons.mp h
    · exact .inr ⟨q, rfl⟩
    · exact (ih h).imp_left (List.mem_append_right _)
  | cons first rest hnone ih =>
    rw [decode_cons hnone] at h
    obtain rfl | h := List.mem_cons.mp h
    · exact .inl List.mem_cons_self
    · exact (ih h).imp_left (List.mem_cons_of_mem first)

theorem quote_not_mem_encode (q : Quote) (value : List Char) : q.char ∉ encode q value := by
  rw [encode, List.mem_flatMap]
  rintro ⟨c, -, hmem⟩
  split_ifs at hmem with hc
  · exact q.char_not_mem_entity q hmem
  · rw [List.mem_singleton] at hmem
    exact hc (beq_iff_eq.mpr hmem.symm)

/-- Between two quotes stands **the body** of a string. -/
theorem body_of_quoted {raw : List Char} {delimiter : Quote}
    (hstart : raw.head? = some delimiter.char) (hend : raw.getLast? = some delimiter.char) :
    body raw = raw.tail.dropLast := by
  rcases raw with _ | ⟨first, rest⟩
  · rfl
  · obtain rfl : first = delimiter.char := Option.some.inj hstart
    rcases List.eq_nil_or_concat' rest with rfl | ⟨front, last, rfl⟩
    · rfl
    · rw [← List.cons_append, List.getLast?_concat, Option.some.injEq] at hend
      simp [body, hend, delimiter.toNat_char_lt]

theorem body_written (q : Quote) (value : List Char) : body (written q value) = encode q value := by
  have hquoted : body (written q value) = (written q value).tail.dropLast :=
    body_of_quoted rfl (by rw [written, List.getLast?_concat])
  rw [hquoted, written, List.cons_append, List.tail_cons, List.dropLast_concat]

/-! ## Decoding what is encoded -/

theorem encode_cons (q : Quote) (c : Char) (value : List Char) :
    encode q (c :: value) = (if c == q.char then q.entity.toList else [c]) ++ encode q value :=
  List.flatMap_cons

/-- A character that **starts no entity and is no quote**. -/
def IsOrdinary (c : Char) : Prop := c ∉ ['&', '"', '\'']

theorem IsOrdinary.ne_ampersand {c : Char} (h : IsOrdinary c) : c ≠ '&' := by
  rintro rfl
  exact absurd List.mem_cons_self h

theorem IsOrdinary.ne_quote {c : Char} (h : IsOrdinary c) (q : Quote) : c ≠ q.char := by
  rintro rfl
  refine h ?_
  cases q <;> decide

/-- An entity is an ampersand before **ordinary characters**. -/
theorem exists_entity_eq (q : Quote) :
    ∃ name, q.entity.toList = '&' :: name ∧ ∀ c ∈ name, IsOrdinary c := by
  cases q with
  | double => exact ⟨['q', 'u', 'o', 't', ';'], rfl, by simp [IsOrdinary]⟩
  | single => exact ⟨['a', 'p', 'o', 's', ';'], rfl, by simp [IsOrdinary]⟩

/-- Ordinary characters at the front of a text that is decoded and encoded again **stood there
before**: a quote in front of them would be there still, or would be an entity now. -/
theorem isPrefix_of_encode_decode {q : Quote} {front cs : List Char}
    (hfront : ∀ c ∈ front, IsOrdinary c) (h : front <+: encode q (decode cs)) : front <+: cs := by
  induction front generalizing cs with
  | nil => exact List.nil_prefix
  | cons c front ih =>
    obtain ⟨hc, hrest⟩ := List.forall_mem_cons.mp hfront
    have hentity {later : List Char} : ¬ c :: front <+: q.entity.toList ++ later := by
      obtain ⟨name, hname, -⟩ := exists_entity_eq q
      rw [hname]
      exact fun hprefix => hc.ne_ampersand (List.cons_prefix_cons.mp hprefix).1
    induction cs using decode_induction with
    | nil => exact h
    | entity q' cs =>
      rw [decode_entity, encode_cons] at h
      split_ifs at h
      · exact absurd h hentity
      · exact absurd (List.cons_prefix_cons.mp h).1 (hc.ne_quote q')
    | cons d cs hnone =>
      rw [decode_cons hnone, encode_cons] at h
      split_ifs at h
      · exact absurd h hentity
      · obtain ⟨rfl, hprefix⟩ := List.cons_prefix_cons.mp h
        exact List.cons_prefix_cons.mpr ⟨rfl, ih hrest hprefix⟩

/-- A quote is **no start of an entity**. -/
theorem decode_quote (q : Quote) (cs : List Char) :
    decode (q.char :: cs) = q.char :: decode cs := by
  refine decode_cons fun q' hprefix => ?_
  obtain ⟨name, hname, -⟩ := exists_entity_eq q'
  rw [hname] at hprefix
  cases q <;> exact absurd (List.cons_prefix_cons.mp hprefix).1 (by decide)

/-- **Encoding puts no entity together**: what was decoded is read back as it was. -/
theorem decode_encode_decode (q : Quote) (cs : List Char) :
    decode (encode q (decode cs)) = decode cs := by
  induction cs using decode_induction with
  | nil => rfl
  | entity q' cs ih =>
    rw [decode_entity, encode_cons]
    split_ifs with hquote
    · rw [decode_entity, ih, beq_iff_eq.mp hquote]
    · rw [List.singleton_append, decode_quote, ih]
  | cons c cs hnone ih =>
    rw [decode_cons hnone, encode_cons]
    split_ifs with hquote
    · rw [decode_entity, ih, beq_iff_eq.mp hquote]
    · rw [List.singleton_append, decode_cons, ih]
      -- an entity here would have stood here before
      intro q' hprefix
      obtain ⟨name, hname, hordinary⟩ := exists_entity_eq q'
      refine hnone q' ?_
      rw [hname] at hprefix ⊢
      obtain ⟨hc, hlater⟩ := List.cons_prefix_cons.mp hprefix
      exact List.cons_prefix_cons.mpr ⟨hc, isPrefix_of_encode_decode hordinary hlater⟩

/-! ## Normal forms -/

/-- A string that is normalized **has the value it had**. -/
theorem value_normalize (preferred : Quote) (raw : String) :
    value (normalize preferred raw) = value raw := by
  rw [normalize, value, String.toList_ofList, body_written]
  exact decode_encode_decode _ _

/-- **Normalizing keeps the value of a string, and is done once.**  A string between two quotes is
written between two of one quote, none of which stands in between, and what does stands for the same
value; the quote is the preferred one unless the value holds strictly more of it than of the other.
And any text, quoted or not, stays as it is once it is normalized. -/
theorem normalize_keeps_value (preferred : Quote) (raw : String) :
    (∀ delimiter : Quote, raw.toList.head? = some delimiter.char →
      raw.toList.getLast? = some delimiter.char →
      ∃ (quote : Quote) (inside : List Char),
        (normalize preferred raw).toList = quote.char :: inside ++ [quote.char] ∧
        quote.char ∉ inside ∧ decode inside = decode raw.toList.tail.dropLast ∧
        (quote = preferred ↔ (decode raw.toList.tail.dropLast).count preferred.char ≤
          (decode raw.toList.tail.dropLast).count preferred.other.char)) ∧
      normalize preferred (normalize preferred raw) = normalize preferred raw := by
  constructor
  · intro delimiter hstart hend
    have hvalue : value raw = decode raw.toList.tail.dropLast := by
      rw [value, body_of_quoted hstart hend]
    rw [← hvalue]
    exact ⟨preferred.choose (value raw), encode (preferred.choose (value raw)) (value raw),
      String.toList_ofList, quote_not_mem_encode _ _, decode_encode_decode _ _,
      preferred.choose_eq_iff (value raw)⟩
  · rw [normalize, value_normalize, normalize]

/-- An entity that is written out, one that is kept, and one that is none. -/
theorem normalize_keeps_value_entities :
    ("'&quot;a&apos;b\"&quot'".toList.head? = some Quote.single.char ∧
      "'&quot;a&apos;b\"&quot'".toList.getLast? = some Quote.single.char) ∧
    ∃ (quote : Quote) (inside : List Char),
      (normalize .double "'&quot;a&apos;b\"&quot'").toList = quote.char :: inside ++ [quote.char] ∧
      quote.char ∉ inside ∧ decode inside = "\"a'b\"&quot".toList ∧
      (quote = .double ↔ "\"a'b\"&quot".toList.count '"' ≤ "\"a'b\"&quot".toList.count '\'') :=
  ⟨⟨rfl, rfl⟩, (normalize_keeps_value .double "'&quot;a&apos;b\"&quot'").1 .single rfl rfl⟩

end AttributeString

end Reflow
