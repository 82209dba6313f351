import RegionPooling.Json.Document
import RegionPooling.Proofs.Json.Literal

/-!
# Printed documents are read back

A printed tree is read as the same tree, without faults and with nothing left over
(`Document.read_write`). This holds for both forms of spacing and for every kind of numbers, as
long as the text of each number is read as one value by itself; what value that is, is not the
business of this module.

The reader is a machine with a stack, so the statement that carries the induction is about any
stack: the machine that begins a value in front of its text is the machine that has completed this
value behind it (`Document.run_write`). For the rest of an array or object there is one such
statement each, with what has been read of it on the stack.

Main results:

* `Document.read_write` — printing and reading, with `read_page` for the form that is saved.
* `Literal.isScalar_text`, `Number.isScalar_text` — every number is read as one value.
-/

namespace RegionPooling

/-! ## Numbers by themselves -/

/-- In front of anything that does not go on with it, the text is one token and a value. -/
def IsScalar (text : String) : Prop :=
  ∃ token d, Document.ofToken? token = some d ∧
    ∀ rest, Token.Ends rest → Token.scan (text.toList ++ rest) = token :: Token.scan rest

theorem Numeral.isScalar {n : Numeral} (h : n.WellFormed) {text : String}
    (htext : text.toList = n.write) : IsScalar text :=
  ⟨.number n.value?, .number n.value?, rfl, fun _ hrest => htext ▸ Token.scan_write h hrest⟩

theorem isScalar_null : IsScalar "null" :=
  ⟨.null, .null, rfl, fun rest _ => Token.scan_null rest⟩

/-- Numbers of a document, those without a number included, are read as one value. -/
theorem Layout.isScalar_render {f : Format} {lowest highest : Int} (hlowest : lowest ≤ 0)
    (hhighest : 0 ≤ highest) (x : Binary f) : IsScalar ((json lowest highest).render x) := by
  by_cases hfinite : x.isFinite = true
  · obtain ⟨n, hn, htext⟩ := exists_numeral_render hlowest hhighest hfinite
    exact Numeral.isScalar hn htext
  · rw [render_of_not_isFinite lowest highest hfinite]
    exact isScalar_null

theorem isScalar_writeInt (n : Int) : IsScalar (String.ofList (Layout.writeInt n)) :=
  Numeral.isScalar (Numeral.ofInt_wellFormed n)
    (by rw [String.toList_ofList, Numeral.ofInt_write])

/-- The numbers of a written form, and those of a value. -/
theorem Literal.isScalar_text (l : Literal) : IsScalar l.text := by
  cases l with
  | whole n => exact isScalar_writeInt n
  | single x => exact Layout.isScalar_render (by decide) (by decide) x

theorem Number.isScalar_text (n : Number) : IsScalar n.text := by
  cases n with
  | whole n => exact isScalar_writeInt n
  | real x => exact Layout.isScalar_render (by decide) (by decide) x

/-! ## Spacing -/

/-- Only blanks are between the parts. -/
structure Spacing.Blank (s : Spacing) : Prop where
  line : ∀ depth, ∀ c ∈ s.line depth, Token.isSpace c = true
  colon : ∃ blank, s.colon = ':' :: blank ∧ ∀ c ∈ blank, Token.isSpace c = true

theorem Spacing.compact_blank : compact.Blank where
  line := nofun
  colon := ⟨[], rfl, nofun⟩

theorem Spacing.indented_blank : indented.Blank where
  line := by
    intro depth c hc
    rcases List.mem_cons.mp hc with rfl | hc
    · rfl
    · rw [List.eq_of_mem_replicate hc]
      rfl
  colon := ⟨[' '], rfl, List.forall_mem_singleton.mpr rfl⟩

namespace Spacing.Blank

variable {s : Spacing}

theorem scan_line (h : s.Blank) (depth : Nat) (rest : List Char) :
    Token.scan (s.line depth ++ rest) = Token.scan rest := Token.scan_blank (h.line depth) rest

theorem scan_colon (h : s.Blank) (rest : List Char) :
    Token.scan (s.colon ++ rest) = .colon :: Token.scan rest := by
  obtain ⟨blank, hcolon, hblank⟩ := h.colon
  rw [hcolon, List.cons_append, Token.scan_colon, Token.scan_blank hblank]

/-- Blanks and what does not go on with a numeral behind them. -/
theorem ends_line (h : s.Blank) (depth : Nat) {rest : List Char} (hrest : Token.Ends rest) :
    Token.Ends (s.line depth ++ rest) := by
  intro c hc
  cases hline : s.line depth with
  | nil =>
    rw [hline] at hc
    exact hrest c hc
  | cons first blank =>
    rw [hline] at hc
    obtain rfl : first = c := Option.some.inj hc
    have hspace := h.line depth first (hline ▸ List.mem_cons_self)
    simp only [Token.isSpace, Bool.or_eq_true, beq_iff_eq] at hspace
    rcases hspace with ((rfl | rfl) | rfl) | rfl <;> decide

end Spacing.Blank

/-- Punctuation does not go on with a numeral. -/
theorem Token.ends_cons {c : Char} (rest : List Char)
    (hc : c.isDigit = false ∧ c ≠ '.' ∧ c ≠ 'e' ∧ c ≠ 'E') : Ends (c :: rest) := by
  rintro _ ⟨⟩
  exact hc

namespace Document

/-! ## Reading -/

section Reading

variable {ν : Type} (number : ν → String)

mutual

/-- The document of a tree: each number is what is read from its text. -/
def reading : Json ν → Document
  | .null => .null
  | .bool b => .bool b
  | .number x => (read (number x)).1
  | .string s => .string (some s)
  | .array items => .array (readings items)
  | .object members => .object (memberReadings members)

def readings : List (Json ν) → List Document
  | [] => []
  | item :: rest => reading item :: readings rest

def memberReadings : List (String × Json ν) → List (Option String × Document)
  | [] => []
  | (key, value) :: rest => (some key, reading value) :: memberReadings rest

end

end Reading

/-! ## The machine -/

/-- One step of a machine that goes on. -/
theorem run_of_step {phase next : Phase} {stack outer : List Frame} {token : Token}
    (h : step phase stack token = .goOn next outer) (rest : List Token) :
    run phase stack (token :: rest) = run next outer rest := by
  cases phase with
  | after d =>
    cases stack with
    | nil => cases h
    | cons frame outer =>
      cases frame with
      | array done => simp only [run, h]
      | object done key => simp only [run, h]
  | _ => simp only [run, h]

/-- A token that is a value by itself. -/
theorem run_value_of_ofToken? {token : Token} {d : Document} (h : ofToken? token = some d)
    (stack : List Frame) (rest : List Token) :
    run .value stack (token :: rest) = run (.after d) stack rest := by
  apply run_of_step
  cases token with
  | null | bool | number | string =>
    cases h
    rfl
  | _ => cases h

/-- A text that is one token holds the document of this token. -/
theorem read_of_scan {text : String} {token : Token} {d : Document} (hd : ofToken? token = some d)
    (hscan : ∀ rest, Token.Ends rest →
      Token.scan (text.toList ++ rest) = token :: Token.scan rest) :
    read text = (d, []) := by
  have hwhole := hscan [] nofun
  rw [List.append_nil] at hwhole
  rw [read, hwhole, run_value_of_ofToken? hd, Token.scan]
  rfl

/-- A number by itself is the document of its text. -/
theorem read_of_isScalar {text : String} (h : IsScalar text) :
    ∃ token, ofToken? token = some (read text).1 ∧
      ∀ rest, Token.Ends rest → Token.scan (text.toList ++ rest) = token :: Token.scan rest := by
  obtain ⟨token, d, hd, hscan⟩ := h
  exact ⟨token, read_of_scan hd hscan ▸ hd, hscan⟩

theorem read_of_numeral {n : Numeral} (h : n.WellFormed) {text : String}
    (htext : text.toList = n.write) : read text = (.number n.value?, []) :=
  read_of_scan rfl fun _ hrest => htext ▸ Token.scan_write h hrest

/-- Behind an opening bracket a value begins, unless the array ends there. -/
theorem run_itemOrEnd {token : Token} (h : token ≠ .closeBracket) (stack : List Frame)
    (rest : List Token) :
    run .itemOrEnd stack (token :: rest) = run .value stack (token :: rest) := by
  have hstep : step .itemOrEnd stack token = step .value stack token := by
    cases token with
    | closeBracket => exact absurd rfl h
    | _ => rfl
  simp only [run, hstep]

/-! ## The machine in front of a printed tree -/

section Writing

variable {ν : Type} {number : ν → String} {spacing : Spacing}

/-- A value does not begin with a closing bracket. -/
theorem exists_scan_write (spacing : Spacing) (hnumber : ∀ x, IsScalar (number x)) (v : Json ν) (depth : Nat)
    {rest : List Char} (hrest : Token.Ends rest) :
    ∃ token tokens, Token.scan (v.write number spacing depth ++ rest) = token :: tokens ∧
      token ≠ .closeBracket := by
  cases v with
  | null => exact ⟨_, _, Token.scan_null rest, nofun⟩
  | bool b =>
    cases b with
    | true => exact ⟨_, _, Token.scan_true rest, nofun⟩
    | false => exact ⟨_, _, Token.scan_false rest, nofun⟩
  | number x =>
    obtain ⟨token, d, hd, hscan⟩ := hnumber x
    refine ⟨token, _, hscan rest hrest, ?_⟩
    rintro rfl
    cases hd
  | string s => exact ⟨_, _, Token.scan_writeString s rest, nofun⟩
  | array items =>
    cases items with
    | nil => exact ⟨_, _, Token.scan_openBracket _, nofun⟩
    | cons item items => exact ⟨_, _, Token.scan_openBracket _, nofun⟩
  | object members =>
    cases members with
    | nil => exact ⟨_, _, Token.scan_openBrace _, nofun⟩
    | cons member members => exact ⟨_, _, Token.scan_openBrace _, nofun⟩

/-- What follows an item of a printed array. -/
theorem ends_writeItems (number : ν → String) (hspacing : spacing.Blank) (items : List (Json ν)) (depth outer : Nat)
    (rest : List Char) :
    Token.Ends (Json.writeItems number spacing depth items ++ (spacing.line outer ++ ']' :: rest)) := by
  cases items with
  | nil => exact hspacing.ends_line outer (Token.ends_cons rest (by decide))
  | cons item items => exact Token.ends_cons _ (by decide)

/-- What follows a member of a printed object. -/
theorem ends_writeMembers (number : ν → String) (hspacing : spacing.Blank) (members : List (String × Json ν))
    (depth outer : Nat) (rest : List Char) :
    Token.Ends
      (Json.writeMembers number spacing depth members ++ (spacing.line outer ++ '\x7d' :: rest)) := by
  cases members with
  | nil => exact hspacing.ends_line outer (Token.ends_cons rest (by decide))
  | cons member members => exact Token.ends_cons _ (by decide)

mutual

/-- In front of a printed value the machine reads this value, whatever is on its stack. -/
theorem run_write (hnumber : ∀ x, IsScalar (number x)) (hspacing : spacing.Blank) :
    ∀ (v : Json ν) (depth : Nat) (stack : List Frame) {rest : List Char}, Token.Ends rest →
      run .value stack (Token.scan (v.write number spacing depth ++ rest)) =
        run (.after (reading number v)) stack (Token.scan rest)
  | .null, _, stack, rest, _ => by
    rw [Json.write, Token.scan_null, reading]
    exact run_of_step rfl _
  | .bool true, _, stack, rest, _ => by
    rw [Json.write, Token.scan_true, reading]
    exact run_of_step rfl _
  | .bool false, _, stack, rest, _ => by
    rw [Json.write, Token.scan_false, reading]
    exact run_of_step rfl _
  | .number x, _, stack, rest, hrest => by
    obtain ⟨token, htoken, hscan⟩ := read_of_isScalar (hnumber x)
    rw [Json.write, hscan rest hrest, reading]
    exact run_value_of_ofToken? htoken _ _
  | .string s, _, stack, rest, _ => by
    rw [Json.write, Token.scan_writeString, reading]
    exact run_of_step rfl _
  | .array [], _, stack, rest, _ => by
    rw [Json.write, reading, readings]
    show run .value stack (Token.scan ('[' :: ']' :: rest)) = _
    rw [Token.scan_openBracket, Token.scan_closeBracket, run_of_step rfl]
    exact run_of_step rfl _
  | .array (item :: items), depth, stack, rest, _ => by
    have hends := ends_writeItems number hspacing items (depth + 1) depth rest
    obtain ⟨token, tokens, htokens, htoken⟩ :=
      exists_scan_write spacing hnumber item (depth + 1) hends
    simp only [Json.write, reading, readings, List.cons_append, List.append_assoc,
      List.nil_append]
    -- Behind the bracket the array could end, but an item begins there.
    rw [Token.scan_openBracket, hspacing.scan_line, run_of_step rfl, htokens,
      run_itemOrEnd htoken, ← htokens, run_write hnumber hspacing item _ _ hends]
    exact run_writeItems hnumber hspacing items (depth + 1) depth _ [] stack rest
  | .object [], _, stack, rest, _ => by
    rw [Json.write, reading, memberReadings]
    show run .value stack (Token.scan ('\x7b' :: '\x7d' :: rest)) = _
    rw [Token.scan_openBrace, Token.scan_closeBrace, run_of_step rfl]
    exact run_of_step rfl _
  | .object ((key, value) :: members), depth, stack, rest, _ => by
    have hends := ends_writeMembers number hspacing members (depth + 1) depth rest
    simp only [Json.write, reading, memberReadings, List.cons_append, List.append_assoc,
      List.nil_append]
    -- The key goes on the stack and waits there for the value.
    rw [Token.scan_openBrace, hspacing.scan_line, run_of_step rfl, Token.scan_writeString,
      run_of_step rfl, hspacing.scan_colon, run_of_step rfl,
      run_write hnumber hspacing value _ _ hends]
    exact run_writeMembers hnumber hspacing members (depth + 1) depth key _ [] stack rest

/-- The rest of an array, behind an item that has not been put in its place yet. -/
theorem run_writeItems (hnumber : ∀ x, IsScalar (number x)) (hspacing : spacing.Blank) :
    ∀ (items : List (Json ν)) (depth closing : Nat) (d : Document) (done : List Document)
      (outer : List Frame) (rest : List Char),
      run (.after d) (.array done :: outer) (Token.scan
        (Json.writeItems number spacing depth items ++ (spacing.line closing ++ ']' :: rest))) =
        run (.after (.array (done.reverse ++ d :: readings number items))) outer (Token.scan rest)
  | [], _, _, d, done, outer, rest => by
    rw [Json.writeItems, List.nil_append, hspacing.scan_line, Token.scan_closeBracket, readings,
      ← List.reverse_cons]
    exact run_of_step rfl _
  | item :: items, depth, closing, d, done, outer, rest => by
    have hends := ends_writeItems number hspacing items depth closing rest
    simp only [Json.writeItems, List.cons_append, List.append_assoc]
    rw [Token.scan_comma, hspacing.scan_line, run_of_step rfl,
      run_write hnumber hspacing item _ _ hends, run_writeItems hnumber hspacing items]
    -- The item before this one has joined what is done.
    simp only [readings, List.reverse_cons, List.append_assoc, List.singleton_append]

/-- The rest of an object, behind a value that has not been put in its place yet. -/
theorem run_writeMembers (hnumber : ∀ x, IsScalar (number x)) (hspacing : spacing.Blank) :
    ∀ (members : List (String × Json ν)) (depth closing : Nat) (key : String) (d : Document)
      (done : List (Option String × Document)) (outer : List Frame) (rest : List Char),
      run (.after d) (.object done (some key) :: outer) (Token.scan
        (Json.writeMembers number spacing depth members ++
          (spacing.line closing ++ '\x7d' :: rest))) =
        run (.after (.object (done.reverse ++ (some key, d) :: memberReadings number members))) outer
          (Token.scan rest)
  | [], _, _, key, d, done, outer, rest => by
    rw [Json.writeMembers, List.nil_append, hspacing.scan_line, Token.scan_closeBrace,
      memberReadings, ← List.reverse_cons]
    exact run_of_step rfl _
  | (next, value) :: members, depth, closing, key, d, done, outer, rest => by
    have hends := ends_writeMembers number hspacing members depth closing rest
    simp only [Json.writeMembers, List.cons_append, List.append_assoc]
    rw [Token.scan_comma, hspacing.scan_line, run_of_step rfl, Token.scan_writeString,
      run_of_step rfl, hspacing.scan_colon, run_of_step rfl,
      run_write hnumber hspacing value _ _ hends, run_writeMembers hnumber hspacing members]
    simp only [memberReadings, List.reverse_cons, List.append_assoc, List.singleton_append]

end

/-- A printed tree is read as this tree, with nothing left over. -/
theorem read_write (hnumber : ∀ x, IsScalar (number x)) (hspacing : spacing.Blank) (v : Json ν)
    (depth : Nat) :
    read (String.ofList (v.write number spacing depth)) = (reading number v, []) := by
  have hrun := run_write hnumber hspacing v depth [] (show Token.Ends [] from nofun)
  rw [List.append_nil] at hrun
  rw [read, String.toList_ofList, hrun, Token.scan]
  rfl

end Writing

/-- A written form with every item on its own line is read back. -/
theorem read_page (written : Written) :
    read (Json.page written) = (reading Literal.text written, []) :=
  read_write Literal.isScalar_text Spacing.indented_blank written 0

end Document

end RegionPooling
