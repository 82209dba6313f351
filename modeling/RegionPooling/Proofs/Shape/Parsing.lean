import RegionPooling.Proofs.Failures
import RegionPooling.Proofs.Fixture
import RegionPooling.Proofs.Text.Lines
import RegionPooling.Proofs.Text.Reading

/-!
# Which texts are shapes

A shape is read from a text by trimming it, by dropping brackets at both ends, by cutting it at
the commas and by reading a numeral from every part. `Shape.Denotes` says from the other side how
a shape may be written: blanks around the whole text, any number of brackets in front and behind,
and inside of them sizes with a comma between each two of them, each size with blanks around it.
The reader accepts these texts and no others, and it gives back the sizes that are written.

How shapes are printed is one of the ways in which they may be written, and so is how they stand
in a document.

Main results:

* `Shape.parse_eq_ok_iff` — the texts that are read, and what is read from them.
* `Shape.denotes_bracketed` — a list of printed sizes between brackets, however it is spaced.
* `Shape.parse_outcome` — both outcomes of reading, and the printed forms of a shape.
-/

namespace RegionPooling

namespace Shape

open Text (HasCore IsNumeral isBlank)

/-! ## How a shape may be written -/

/-- The numeral of a size, with blanks around it. -/
structure IsSizeText (part : List Char) (size : UInt32) : Prop where
  around : ∃ before numeral after, part = before ++ numeral ++ after ∧
    (∀ c ∈ before, isBlank c = true) ∧ (∀ c ∈ after, isBlank c = true) ∧
    IsNumeral numeral size.toNat

/-- One or more sizes, with a comma between each two of them. -/
inductive IsSizeList : List Char → List UInt32 → Prop
  | single {part : List Char} {size : UInt32} (h : IsSizeText part size) :
    IsSizeList part [size]
  | cons {part rest : List Char} {size : UInt32} {sizes : List UInt32}
    (h : IsSizeText part size) (hrest : IsSizeList rest sizes) :
    IsSizeList (part ++ ',' :: rest) (size :: sizes)

/-- The text is `inside` between brackets, of which `inside` has none at its ends. -/
structure Unbracketed (text inside : List Char) : Prop where
  around : ∃ opened closed, text = opened ++ inside ++ closed ∧
    (∀ c ∈ opened, c = '[') ∧ ∀ c ∈ closed, c = ']'
  head : inside.head? ≠ some '['
  last : inside.getLast? ≠ some ']'

/-- The text is that of a shape of these sizes; without sizes there may be any blanks instead. -/
def Denotes (text : List Char) (sizes : List UInt32) : Prop :=
  ∃ core inside, HasCore text core ∧ Unbracketed core inside ∧
    ((∀ c ∈ inside, isBlank c = true) ∧ sizes = [] ∨ IsSizeList inside sizes)

/-! ## Characters of sizes -/

theorem IsSizeText.isBlank_or {part : List Char} {size : UInt32} (h : IsSizeText part size)
    {c : Char} (hc : c ∈ part) : isBlank c = true ∨ c.isDigit = true ∨ c = '+' := by
  obtain ⟨before, numeral, after, rfl, hbefore, hafter, hnumeral⟩ := h.around
  rcases List.mem_append.mp hc with hc | hc
  · rcases List.mem_append.mp hc with hc | hc
    · exact .inl (hbefore c hc)
    · exact .inr (hnumeral.isDigit_or_plus hc)
  · exact .inl (hafter c hc)

theorem IsSizeText.comma_notMem {part : List Char} {size : UInt32} (h : IsSizeText part size) :
    ',' ∉ part := fun hc =>
  absurd (h.isBlank_or hc) (by decide)

theorem IsSizeText.exists_not_isBlank {part : List Char} {size : UInt32}
    (h : IsSizeText part size) : ∃ c ∈ part, isBlank c = false := by
  obtain ⟨before, numeral, after, rfl, -, -, hnumeral⟩ := h.around
  obtain ⟨c, hc⟩ := List.exists_mem_of_ne_nil numeral hnumeral.ne_nil
  refine ⟨c, ?_, hnumeral.isBlank_eq_false hc⟩
  exact List.mem_append_left _ (List.mem_append_right _ hc)

namespace IsSizeList

variable {text : List Char} {sizes : List UInt32}

theorem exists_not_isBlank (h : IsSizeList text sizes) : ∃ c ∈ text, isBlank c = false := by
  cases h with
  | single h => exact h.exists_not_isBlank
  | cons h hrest =>
    obtain ⟨c, hc, hblank⟩ := h.exists_not_isBlank
    exact ⟨c, List.mem_append_left _ hc, hblank⟩

/-- No brackets are among the sizes. -/
theorem ne_bracket (h : IsSizeList text sizes) {c : Char} (hc : c ∈ text) :
    c ≠ '[' ∧ c ≠ ']' := by
  have hpart {part : List Char} {size : UInt32} (h : IsSizeText part size) (hc : c ∈ part) :
      c ≠ '[' ∧ c ≠ ']' := by
    have hkind := h.isBlank_or hc
    constructor
    · rintro rfl
      exact absurd hkind (by decide)
    · rintro rfl
      exact absurd hkind (by decide)
  induction h with
  | single h => exact hpart h hc
  | cons h _ ih =>
    rcases List.mem_append.mp hc with hc | hc
    · exact hpart h hc
    · rcases List.mem_cons.mp hc with rfl | hc
      · decide
      · exact ih hc

/-- A list of sizes is what has a size in each of its parts. -/
theorem iff_parts : IsSizeList text sizes ↔ List.Forall₂ IsSizeText (Text.parts ',' text) sizes := by
  constructor
  · intro h
    induction h with
    | single h =>
      rw [Text.parts_of_notMem h.comma_notMem]
      exact .cons h .nil
    | cons h _ ih =>
      rw [Text.parts_append_cons h.comma_notMem]
      exact .cons h ih
  · intro h
    -- The text is put together from its parts again, from the last one on.
    rw [← Text.intercalate_parts ',' text]
    have hne := Text.parts_ne_nil ',' text
    generalize Text.parts ',' text = parts at h hne
    induction h with
    | nil => exact absurd rfl hne
    | @cons part size rest sizes hpart hrest ih =>
      cases hrest with
      | nil =>
        rw [List.intercalate_singleton]
        exact single hpart
      | cons hnext hrest =>
        rw [List.intercalate_cons_cons, List.append_assoc, List.singleton_append]
        exact cons hpart (ih (List.cons_ne_nil _ _))

end IsSizeList

/-! ## What is read -/

theorem readSize_eq_ok_iff {input : String} {part : List Char} {size : UInt32} :
    readSize input part = .ok size ↔ IsSizeText part size := by
  have hread : readSize input part = .ok size ↔
      Text.readNumeral 0xFFFFFFFF (Text.trim part) = .ok size.toNat := by
    unfold readSize
    dsimp only
    cases hnumeral : Text.readNumeral 0xFFFFFFFF (Text.trim part) with
    | error error => exact ⟨fun h => (by cases h), fun h => (by cases h)⟩
    | ok n =>
      -- Within the limit a number is that of its four bytes.
      have hle : n ≤ 0xFFFFFFFF := (Text.readNumeral_eq_ok_iff.mp hnumeral).2
      have hsize : (UInt32.ofNat n).toNat = n := UInt32.toNat_ofNat_of_lt' (by
        show n < 4294967296
        omega)
      constructor
      · rintro ⟨⟩
        rw [hsize]
      · rintro ⟨⟩
        exact congrArg Except.ok (UInt32.ofNat_toNat ..)
  have hlt := size.toNat_lt
  rw [hread, Text.readNumeral_eq_ok_iff]
  constructor
  · rintro ⟨hnumeral, -⟩
    obtain ⟨before, after, hpart, hbefore, hafter⟩ := (Text.trim_eq_iff.mp rfl).around
    exact ⟨before, Text.trim part, after, hpart, hbefore, hafter, hnumeral⟩
  · rintro ⟨before, numeral, after, rfl, hbefore, hafter, hnumeral⟩
    have htrim : Text.trim (before ++ numeral ++ after) = numeral :=
      Text.trim_eq_iff.mpr {
        around := ⟨before, after, rfl, hbefore, hafter⟩
        head := fun c hc => hnumeral.isBlank_eq_false (List.mem_of_mem_head? hc)
        last := fun c hc => hnumeral.isBlank_eq_false (List.mem_of_mem_getLast? hc) }
    rw [htrim]
    exact ⟨hnumeral, by omega⟩

theorem interior_eq_iff {text inside : List Char} :
    interior text = inside ↔ ∃ core, HasCore text core ∧ Unbracketed core inside := by
  have hinterior {core : List Char} :
      Text.dropEndWhile (· == ']') (core.dropWhile (· == '[')) = inside ↔
        Unbracketed core inside := by
    rw [Text.dropEndWhile_eq_iff]
    simp only [Text.dropWhile_eq_iff, beq_iff_eq, beq_eq_false_iff_ne]
    constructor
    · rintro ⟨closed, ⟨opened, hcore, hopened, hhead⟩, hclosed, hlast⟩
      refine ⟨⟨opened, closed, by rw [hcore, List.append_assoc], hopened, hclosed⟩, fun h => ?_,
        fun h => hlast _ h rfl⟩
      exact hhead '[' (by rw [List.head?_append, h, Option.some_or]) rfl
    · rintro ⟨⟨opened, closed, rfl, hopened, hclosed⟩, hhead, hlast⟩
      refine ⟨closed, ⟨opened, List.append_assoc .., hopened, ?_⟩, hclosed, ?_⟩
      · rintro c hc rfl
        -- Behind nothing at all there are only closing brackets.
        cases inside with
        | nil => exact absurd (hclosed '[' (List.mem_of_mem_head? hc)) (by decide)
        | cons d inside => exact hhead hc
      · rintro c hc rfl
        exact hlast hc
  constructor
  · intro h
    exact ⟨Text.trim text, Text.trim_eq_iff.mp rfl, hinterior.mp h⟩
  · rintro ⟨core, hcore, hinside⟩
    rw [interior, Text.trim_eq_iff.mpr hcore]
    exact hinterior.mpr hinside

/-- A shape is read from the texts of shapes only, and it is the shape of the text. -/
theorem parse_eq_ok_iff {input : String} {s : Shape} :
    parse input = .ok s ↔ Denotes input.toList s.sizes := by
  -- What is read inside of the brackets, by whether anything but blanks is there.
  have hinside (inside : List Char) :
      (if Text.trim inside = [] then .ok ⟨[]⟩
        else ((Text.parts ',' inside).mapM (readSize input)).map Shape.mk) = .ok s ↔
      (∀ c ∈ inside, isBlank c = true) ∧ s.sizes = [] ∨ IsSizeList inside s.sizes := by
    by_cases hblank : ∀ c ∈ inside, isBlank c = true
    · rw [if_pos (Text.trim_eq_nil_iff.mpr hblank)]
      constructor
      · rintro ⟨⟩
        exact .inl ⟨hblank, rfl⟩
      · rintro (⟨-, hsizes⟩ | hsizes)
        · exact congrArg (fun sizes => Except.ok (Shape.mk sizes)) hsizes.symm
        · obtain ⟨c, hc, hne⟩ := hsizes.exists_not_isBlank
          exact absurd (hblank c hc) (by simp [hne])
    · rw [if_neg (Text.trim_eq_nil_iff.not.mpr hblank), map_eq_ok]
      simp only [mapM_eq_ok_iff, readSize_eq_ok_iff, ← IsSizeList.iff_parts]
      constructor
      · rintro ⟨sizes, hsizes, rfl⟩
        exact .inr hsizes
      · rintro (⟨h, -⟩ | hsizes)
        · exact absurd h hblank
        · exact ⟨s.sizes, hsizes, rfl⟩
  unfold parse Denotes
  dsimp only
  rw [hinside]
  constructor
  · intro h
    obtain ⟨core, hcore, hcoreInside⟩ := interior_eq_iff.mp (Eq.refl (interior input.toList))
    exact ⟨core, _, hcore, hcoreInside, h⟩
  · rintro ⟨core, inside, hcore, hcoreInside, h⟩
    rw [interior_eq_iff.mpr ⟨core, hcore, hcoreInside⟩]
    exact h

/-- Whatever is wrong with a text, it is reported together with the text. -/
theorem failsOnly_parse (input : String) :
    FailsOnly (fun error => ∃ reason, error = .invalidShape input reason) (parse input) := by
  unfold parse
  dsimp only
  split
  · exact FailsOnly.ok _
  · refine FailsOnly.map (FailsOnly.mapM fun part _ => ?_) Shape.mk
    unfold readSize
    dsimp only
    split
    · exact FailsOnly.ok _
    · exact FailsOnly.error ⟨_, rfl⟩

/-! ## Printed shapes -/

/-- The digits of a size, with blanks in front. -/
theorem isSizeText_toDigits {blank : List Char} (h : ∀ c ∈ blank, isBlank c = true)
    (size : UInt32) : IsSizeText (blank ++ Nat.toDigits 10 size.toNat) size where
  around := ⟨blank, Nat.toDigits 10 size.toNat, [], (List.append_nil _).symm, h, nofun,
    Text.isNumeral_toDigits size.toNat⟩

/-- Blanks may follow a size. -/
theorem IsSizeText.append_blank {part blank : List Char} {size : UInt32}
    (h : IsSizeText part size) (hblank : ∀ c ∈ blank, isBlank c = true) :
    IsSizeText (part ++ blank) size := by
  obtain ⟨before, numeral, after, rfl, hbefore, hafter, hnumeral⟩ := h.around
  refine ⟨before, numeral, after ++ blank, by simp only [List.append_assoc], hbefore, ?_, hnumeral⟩
  exact List.forall_mem_append.mpr ⟨hafter, hblank⟩

/-- What stands between brackets where sizes are printed: blanks in front of every size, and
behind the last one. -/
def printed (first gap last : List Char) : List UInt32 → List Char
  | [] => []
  | size :: rest => first ++ Nat.toDigits 10 size.toNat
      ++ rest.flatMap (fun size => ',' :: gap ++ Nat.toDigits 10 size.toNat) ++ last

section Printed

variable {first gap last : List Char} {sizes : List UInt32}

theorem isSizeList_printed (hfirst : ∀ c ∈ first, isBlank c = true)
    (hgap : ∀ c ∈ gap, isBlank c = true) (hlast : ∀ c ∈ last, isBlank c = true)
    (hne : sizes ≠ []) : IsSizeList (printed first gap last sizes) sizes := by
  cases sizes with
  | nil => exact absurd rfl hne
  | cons size rest =>
    -- Behind the first comma there are fewer sizes, with the blanks after a comma in front.
    induction rest generalizing size first with
    | nil =>
      rw [printed, List.flatMap_nil, List.append_nil]
      exact .single ((isSizeText_toDigits hfirst size).append_blank hlast)
    | cons next rest ih =>
      have hrest := ih hgap next (List.cons_ne_nil _ _)
      have hsplit : printed first gap last (size :: next :: rest) =
          first ++ Nat.toDigits 10 size.toNat ++ ',' :: printed gap gap last (next :: rest) := by
        simp only [printed, List.flatMap_cons, List.append_assoc, List.cons_append]
      rw [hsplit]
      exact .cons (isSizeText_toDigits hfirst size) hrest

/-- A list of printed sizes between brackets. -/
theorem denotes_bracketed (hfirst : ∀ c ∈ first, isBlank c = true)
    (hgap : ∀ c ∈ gap, isBlank c = true) (hlast : ∀ c ∈ last, isBlank c = true)
    (sizes : List UInt32) :
    Denotes ('[' :: printed first gap last sizes ++ [']']) sizes := by
  -- A bracket is no blank, so the text between the blanks around it is the whole text.
  have hends {c : Char} (hc : c = '[' ∨ c = ']') : isBlank c = false := by
    rcases hc with rfl | rfl
    · rfl
    · rfl
  have hcore : HasCore ('[' :: printed first gap last sizes ++ [']'])
      ('[' :: printed first gap last sizes ++ [']']) := by
    refine ⟨⟨[], [], (List.append_nil _).symm, nofun, nofun⟩, fun c hc => ?_, fun c hc => ?_⟩
    · exact hends (.inl (Option.some.inj hc).symm)
    · rw [List.getLast?_concat] at hc
      exact hends (.inr (Option.some.inj hc).symm)
  by_cases hne : sizes = []
  · subst hne
    exact ⟨_, [], hcore, ⟨⟨['['], [']'], rfl, List.forall_mem_singleton.mpr rfl,
      List.forall_mem_singleton.mpr rfl⟩, nofun, nofun⟩, .inl ⟨nofun, rfl⟩⟩
  · have hsizes := isSizeList_printed hfirst hgap hlast hne
    refine ⟨_, printed first gap last sizes, hcore, ⟨⟨['['], [']'], rfl,
      List.forall_mem_singleton.mpr rfl, List.forall_mem_singleton.mpr rfl⟩, ?_, ?_⟩,
      .inr hsizes⟩
    · intro h
      exact (hsizes.ne_bracket (List.mem_of_mem_head? h)).1 rfl
    · intro h
      exact (hsizes.ne_bracket (List.mem_of_mem_getLast? h)).2 rfl

end Printed

theorem intercalate_cons_eq {α : Type} (separator item : List α) (rest : List (List α)) :
    separator.intercalate (item :: rest) = item ++ rest.flatMap (separator ++ ·) := by
  induction rest generalizing item with
  | nil => rw [List.intercalate_singleton, List.flatMap_nil, List.append_nil]
  | cons next rest ih =>
    rw [List.intercalate_cons_cons, ih, List.flatMap_cons, List.append_assoc, List.append_assoc]

/-- A shown shape has a blank after each comma. -/
theorem toList_text (s : Shape) : s.text.toList = '[' :: printed [] [' '] [] s.sizes ++ [']'] := by
  obtain ⟨sizes⟩ := s
  have hdigits (size : UInt32) : (toString size.toNat).toList = Nat.toDigits 10 size.toNat := by
    rw [Nat.toString_eq_ofList_toDigits, String.toList_ofList]
  simp only [text, String.toList_append, String.toList_intercalate, List.map_map]
  cases sizes with
  | nil => rfl
  | cons size rest =>
    rw [List.map_cons, intercalate_cons_eq, List.flatMap_map, Function.comp_apply, hdigits, printed]
    simp only [Function.comp_apply, hdigits, List.append_nil, List.nil_append]
    rfl

section Documents

variable {spacing : Spacing}

theorem write_whole (n depth : Nat) :
    (Json.number (.whole (n : Int))).write Literal.text spacing depth = Nat.toDigits 10 n := by
  rw [Json.write, Literal.text, String.toList_ofList, Layout.writeInt, if_neg (by omega),
    Int.natAbs_natCast]

theorem writeItems_sizes (sizes : List UInt32) (depth : Nat) :
    Json.writeItems Literal.text spacing depth
        (sizes.map fun size => .number (.whole size.toNat)) =
      sizes.flatMap fun size => ',' :: spacing.line depth ++ Nat.toDigits 10 size.toNat := by
  induction sizes with
  | nil => rfl
  | cons size rest ih =>
    rw [List.map_cons, Json.writeItems, ih, write_whole, List.flatMap_cons]

/-- In a document the sizes are on lines of their own, or have nothing between them. -/
theorem write_written (s : Shape) (hempty : s.sizes ≠ []) :
    s.written.write Literal.text spacing 0 =
      '[' :: printed (spacing.line 1) (spacing.line 1) (spacing.line 0) s.sizes ++ [']'] := by
  obtain ⟨sizes⟩ := s
  cases sizes with
  | nil => exact absurd rfl hempty
  | cons size rest =>
    rw [written, List.map_cons, Json.write, write_whole, writeItems_sizes, printed]
    simp only [List.cons_append]

theorem isBlank_of_isSpace {c : Char} (h : Token.isSpace c = true) : isBlank c = true := by
  simp only [Token.isSpace, Bool.or_eq_true, beq_iff_eq] at h
  rcases h with ((rfl | rfl) | rfl) | rfl
  all_goals rfl

/-- How a shape stands in a document is one of the ways in which it may be written. -/
theorem denotes_write (hspacing : spacing.Blank) (s : Shape) :
    Denotes (s.written.write Literal.text spacing 0) s.sizes := by
  have hline (depth : Nat) : ∀ c ∈ spacing.line depth, isBlank c = true := fun c hc =>
    isBlank_of_isSpace (hspacing.line depth c hc)
  by_cases hempty : s.sizes = []
  · rw [written, hempty, List.map_nil, Json.write]
    exact denotes_bracketed (List.forall_mem_nil _) (List.forall_mem_nil _) (List.forall_mem_nil _) []
  · rw [write_written s hempty]
    exact denotes_bracketed (hline 1) (hline 1) (hline 0) s.sizes

theorem parse_write (hspacing : spacing.Blank) (s : Shape) :
    parse (String.ofList (s.written.write Literal.text spacing 0)) = .ok s := by
  rw [parse_eq_ok_iff, String.toList_ofList]
  exact denotes_write hspacing s

theorem ofJson_write (hspacing : spacing.Blank) (s : Shape) :
    ofJson (String.ofList (s.written.write Literal.text spacing 0)) = .ok s := by
  have hread := Document.read_write Literal.isScalar_text hspacing s.written 0
  rw [ofJson, Document.decode, hread]
  simp only [ofDocument_reading]
  rfl

end Documents

/--
A text is read as a shape exactly if it is written as one: without the blanks and then the
brackets at its ends it has nothing but blanks, and the shape no sizes, or it has sizes with commas
between them, and these are the sizes of the shape. Any other text is reported as invalid. So a
shape is read from how it is shown, and also from how it is written in a document, whether it is
read as a list or as a document there.
-/
theorem parse_outcome :
    (∀ (input : String) (s : Shape), parse input = .ok s ↔ Denotes input.toList s.sizes) ∧
    (∀ input : String, (∃ s, parse input = .ok s) ∨
      ∃ reason, parse input = .error (.invalidShape input reason)) ∧
    ∀ s : Shape, parse s.text = .ok s ∧
      parse (Json.line s.written) = .ok s ∧ ofJson (Json.line s.written) = .ok s ∧
      parse (Json.page s.written) = .ok s ∧ ofJson (Json.page s.written) = .ok s := by
  refine ⟨fun input s => parse_eq_ok_iff, fun input => ?_, fun s => ⟨?_, ?_⟩⟩
  · cases h : parse input with
    | ok s => exact .inl ⟨s, rfl⟩
    | error error =>
      obtain ⟨reason, rfl⟩ := failsOnly_parse input error h
      exact .inr ⟨reason, rfl⟩
  · rw [parse_eq_ok_iff, toList_text]
    exact denotes_bracketed (List.forall_mem_nil _) (List.forall_mem_singleton.mpr rfl)
      (List.forall_mem_nil _) s.sizes
  · exact ⟨parse_write Spacing.compact_blank s, ofJson_write Spacing.compact_blank s,
      parse_write Spacing.indented_blank s, ofJson_write Spacing.indented_blank s⟩

/-- Brackets need not match, and a size may have a sign and zeros in front. -/
example : (parse " [[+1 ,\t02] ").toOption = some ⟨[1, 2]⟩ := by decide +kernel

end Shape

end RegionPooling
