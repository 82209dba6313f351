import RegionPooling.Json.Decode
import RegionPooling.Proofs.Json.Printing

/-!
# Decoding what was written

The documents of written numbers, lists and records are taken to the values they were written
for. For records there is one statement about every schema: members of known fields that are in
order and do not repeat are all read, in their order (`Schema.read_object`), whichever of the
fields that may be left out are there.

Main results:

* `Document.asSingle_reading`, `Document.asUInt32_reading`, `Document.asInt32_reading` — numbers.
* `Document.asList_reading` — lists, by their items.
* `Schema.read_object` — records, by their fields.
-/

namespace RegionPooling

namespace Document

/-! ## Numbers -/

/-- A whole number that fits a machine word is read as itself. -/
theorem read_whole {n : Int} (hlower : -0x8000000000000000 ≤ n) (hupper : n < 0x10000000000000000) :
    read (Literal.whole n).text = (.number (some (.whole n)), []) := by
  have htext : (Literal.whole n).text.toList = (Numeral.ofInt n).write := by
    rw [Literal.text, String.toList_ofList, Numeral.ofInt_write]
  rw [read_of_numeral (Numeral.ofInt_wellFormed n) htext, Numeral.ofInt_value? hlower hupper]

theorem asWhole_reading {lower upper n : Int} (expected : String)
    (hlower : -0x8000000000000000 ≤ n) (hupper : n < 0x10000000000000000)
    (hwithin : lower ≤ n ∧ n ≤ upper) :
    (reading Literal.text (.number (.whole n))).asWhole lower upper expected = .ok n := by
  rw [reading, read_whole hlower hupper]
  exact if_pos hwithin

theorem asUInt32_reading (n : UInt32) :
    (reading Literal.text (.number (.whole n.toNat))).asUInt32 = .ok n := by
  have hlt := n.toNat_lt
  rw [asUInt32, asWhole_reading "u32" (by omega) (by omega) (by omega)]
  show Except.ok (UInt32.ofNat (n.toNat : Int).toNat) = _
  rw [Int.toNat_natCast, UInt32.ofNat_toNat]

theorem asInt32_reading (n : Int32) :
    (reading Literal.text (.number (.whole n.toInt))).asInt32 = .ok n := by
  have hlower := n.le_toInt
  have hupper := n.toInt_lt
  rw [asInt32, asWhole_reading "i32" (by omega) (by omega) (by omega)]
  exact congrArg Except.ok n.ofInt_toInt

/-- A finite number goes through its decimal and an eight-byte number unchanged. -/
theorem asSingle_reading {x : Single} (h : x.isFinite = true) :
    (reading Literal.text (.number (.single x))).asSingle = .ok x := by
  -- The text is a numeral for an eight-byte number, which is rounded to `x`.
  obtain ⟨n, hn, htext, y, hvalue, hconvert⟩ := Single.exists_numeral h
  have hread : read (Literal.single x).text = (.number n.value?, []) := read_of_numeral hn htext
  rw [reading, hread, hvalue, asSingle, hconvert]

/-! ## Lists -/

section Lists

variable {ν α : Type} {number : ν → String}

/-- A list is decoded if each of its items is. -/
theorem asList_reading {item : Document → Except Failure α} {write : α → Json ν} {items : List α}
    (h : ∀ x ∈ items, item (reading number (write x)) = .ok x) :
    (reading number (.array (items.map write))).asList item = .ok items := by
  rw [reading, asList]
  induction items with
  | nil => rfl
  | cons x items ih =>
    rw [List.map_cons, readings, List.mapM_cons, h x List.mem_cons_self,
      ih fun x hx => h x (List.mem_cons_of_mem _ hx)]
    rfl

/-- Something that is there, and is not written as nothing. -/
theorem asOption_of_ok {some? : Document → Except Failure α} {d : Document} {x : α}
    (hnull : d ≠ .null) (h : some? d = .ok x) : d.asOption some? = .ok (some x) := by
  cases d with
  | null => exact absurd rfl hnull
  | _ => exact congrArg (Except.map some) h

end Lists

end Document

/-! ## Records -/

namespace Schema

/-- The member is that of a field, and its value passes the check. -/
def Accepts (schema : Schema) (member : String × Document) : Prop :=
  ∃ field, schema.fields.find? (fun field => field.name == member.1) = some field ∧
    field.check member.2 = .ok ()

/-- A field accepts what its decoder can read. -/
theorem accepts_of_ok {schema : Schema} {name : String} {optional : Bool} {α : Type}
    {decode : Document → Except Failure α} {d : Document} {x : α}
    (hfind : schema.fields.find? (fun field => field.name == name) =
      some { name, optional, check := fun d => (decode d).map fun _ => () })
    (hdecode : decode d = .ok x) : schema.Accepts (name, d) :=
  ⟨_, hfind, congrArg (Except.map fun _ => ()) hdecode⟩

/-- A member of a known field is read if its value passes the check and it does not repeat. -/
theorem readMembers_cons {schema : Schema} {present members : Fields} {key : String} {d : Document}
    {field : Field} (hdistinct : ((present ++ (key, d) :: members).map Prod.fst).Nodup)
    (hfind : schema.fields.find? (fun field => field.name == key) = some field)
    (rest : List (Option String × Document)) :
    schema.readMembers present ((some key, d) :: rest) =
      field.check d >>= fun _ => schema.readMembers (present ++ [(key, d)]) rest := by
  rw [readMembers, hfind]
  refine if_neg ?_
  -- A member with this name would make two of them.
  rw [Bool.not_eq_true, List.any_eq_false]
  rintro ⟨name, d'⟩ hmem hname
  rw [List.map_append, List.nodup_append] at hdistinct
  exact hdistinct.2.2 name (List.mem_map.mpr ⟨_, hmem, rfl⟩) key List.mem_cons_self
    (eq_of_beq hname)

/-- Members of known fields are all read if none repeats. -/
theorem readMembers_eq (schema : Schema) (present : Fields) {members : Fields}
    (hdistinct : ((present ++ members).map Prod.fst).Nodup)
    (haccepts : ∀ member ∈ members, schema.Accepts member) :
    schema.readMembers present (members.map fun (key, d) => (some key, d)) =
      .ok (present ++ members) := by
  -- Along the members; those that are present are what the next one may not repeat.
  induction members generalizing present with
  | nil =>
    rw [List.append_nil]
    rfl
  | cons member members ih =>
    obtain ⟨key, d⟩ := member
    obtain ⟨field, hfind, hcheck⟩ := haccepts (key, d) List.mem_cons_self
    rw [List.map_cons, readMembers_cons hdistinct hfind, hcheck]
    rw [List.append_cons present (key, d) members] at hdistinct ⊢
    exact ih _ hdistinct fun member hmember => haccepts member (List.mem_cons_of_mem _ hmember)

variable {ν : Type} {number : ν → String}

/-- The members of a written object, by name. -/
def memberDocuments (number : ν → String) (members : List (String × Json ν)) : Fields :=
  members.map fun (key, value) => (key, Document.reading number value)

theorem memberReadings_eq (members : List (String × Json ν)) :
    Document.memberReadings number members =
      (memberDocuments number members).map fun (key, d) => (some key, d) := by
  induction members with
  | nil => rfl
  | cons member members ih =>
    obtain ⟨key, value⟩ := member
    rw [Document.memberReadings, ih]
    rfl

/-- The fields of a record that was written as an object. -/
theorem read_object (schema : Schema) (excess : Nat → Failure) (members : List (String × Json ν))
    (hdistinct : (members.map Prod.fst).Nodup)
    (haccepts : ∀ member ∈ members, schema.Accepts (member.1, Document.reading number member.2)) :
    schema.read excess (Document.reading number (.object members)) =
      .ok (memberDocuments number members) := by
  rw [Document.reading, memberReadings_eq]
  refine schema.readMembers_eq [] ?_ ?_
  · rw [List.nil_append, memberDocuments, List.map_map]
    exact hdistinct
  · intro member hmember
    obtain ⟨⟨key, value⟩, hmem, rfl⟩ := List.mem_map.mp hmember
    exact haccepts _ hmem

theorem lookup_memberDocuments (members : List (String × Json ν)) (name : String) :
    (memberDocuments number members).lookup name =
      (members.lookup name).map (Document.reading number) := by
  induction members with
  | nil => rfl
  | cons member members ih =>
    obtain ⟨key, value⟩ := member
    by_cases h : name = key
    · rw [memberDocuments, List.map_cons, h, List.lookup_cons_self, List.lookup_cons_self]
      rfl
    · have hne : (name == key) = false := beq_false_of_ne h
      rw [memberDocuments, List.map_cons, List.lookup_cons, List.lookup_cons, hne]
      exact ih

variable {α : Type} {members : List (String × Json ν)} {name : String}
  {decode : Document → Except Failure α} {value : Json ν} {x : α}

/-- A member that was written is got. -/
theorem get_of_lookup (hlookup : members.lookup name = some value)
    (hdecode : decode (Document.reading number value) = .ok x) :
    (memberDocuments number members).get name decode = .ok x := by
  rw [Fields.get, lookup_memberDocuments, hlookup]
  exact hdecode

theorem getD_of_lookup (default : α) (hlookup : members.lookup name = some value)
    (hdecode : decode (Document.reading number value) = .ok x) :
    (memberDocuments number members).getD name decode default = .ok x := by
  rw [Fields.getD, lookup_memberDocuments, hlookup]
  exact hdecode

/-- A member that may be left out, with nothing as its default. -/
theorem getD_of_lookup_map {option : Option α} {decode : Document → Except Failure (Option α)}
    {write : α → Json ν} (hlookup : members.lookup name = option.map write)
    (hdecode : ∀ x, option = some x → decode (Document.reading number (write x)) = .ok (some x)) :
    (memberDocuments number members).getD name decode none = .ok option := by
  cases option with
  | none =>
    rw [Fields.getD, lookup_memberDocuments, hlookup]
    rfl
  | some x => exact getD_of_lookup none hlookup (hdecode x rfl)

end Schema

end RegionPooling
