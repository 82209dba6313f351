import RegionPooling.Proofs.Json.Decoding

/-!
# Written numbers that are not read back

A number that is not finite has no numeral. It is written as nothing, and where a number is
expected, nothing is refused. What contains such a number is refused with it, for the same reason:
a list with one such item, and a record with one such member, whatever else is right in them. So
it does not matter which of several such numbers is met first.

Main results:

* `Document.asSingle_reading_of_not_isFinite` — the number by itself.
* `Document.asList_reading_eq_error` — a list that has it.
* `Schema.read_object_eq_error` — a record that has it.
-/

namespace RegionPooling

/-- The failure of a four-byte number where nothing is written. -/
def Failure.noNumber : Failure := .mismatched (.invalidType .null "f32")

namespace Document

/-- Where a number is not finite, nothing is written, and no number is read. -/
theorem asSingle_reading_of_not_isFinite {x : Single} (h : ¬ x.isFinite = true) :
    (reading Literal.text (.number (.single x))).asSingle = .error .noNumber := by
  have hread : read "null" = (.null, []) := read_of_scan rfl fun rest _ => Token.scan_null rest
  have htext : (Literal.single x).text = "null" := Layout.render_of_not_isFinite (-6) 12 h
  rw [reading, htext, hread]
  rfl

variable {ν α : Type} {number : ν → String}

/-- A list is refused for the first item that is. -/
theorem asList_reading_eq_error {item : Document → Except Failure α} {write : α → Json ν}
    {items : List α} {failure : Failure}
    (hall : ∀ x ∈ items, item (reading number (write x)) = .ok x ∨
      item (reading number (write x)) = .error failure)
    (hsome : ∃ x ∈ items, item (reading number (write x)) = .error failure) :
    (reading number (.array (items.map write))).asList item = .error failure := by
  rw [reading, asList]
  induction items with
  | nil =>
    obtain ⟨x, hx, -⟩ := hsome
    exact absurd hx List.not_mem_nil
  | cons x items ih =>
    rw [List.map_cons, readings, List.mapM_cons]
    rcases hall x List.mem_cons_self with hok | herror
    · -- The first item is read, so the one that is refused is behind it.
      have hrest : ∃ y ∈ items, item (reading number (write y)) = .error failure := by
        obtain ⟨y, hy, hrefused⟩ := hsome
        rcases List.mem_cons.mp hy with rfl | hy
        · rw [hok] at hrefused
          cases hrefused
        · exact ⟨y, hy, hrefused⟩
      rw [hok, ih (fun y hy => hall y (List.mem_cons_of_mem _ hy)) hrest]
      rfl
    · rw [herror]
      rfl

/-- What may be left out, and is refused where it is there. -/
theorem asOption_eq_error {some? : Document → Except Failure α} {d : Document} {failure : Failure}
    (hnull : d ≠ .null) (h : some? d = .error failure) : d.asOption some? = .error failure := by
  cases d with
  | null => exact absurd rfl hnull
  | _ => exact congrArg (Except.map some) h

end Document

namespace Schema

/-- The member is that of a field, and its value fails the check. -/
def Rejects (schema : Schema) (failure : Failure) (member : String × Document) : Prop :=
  ∃ field, schema.fields.find? (fun field => field.name == member.1) = some field ∧
    field.check member.2 = .error failure

variable {schema : Schema} {failure : Failure}

/-- A field rejects what its decoder cannot read. -/
theorem rejects_of_error {name : String} {optional : Bool} {α : Type}
    {decode : Document → Except Failure α} {d : Document}
    (hfind : schema.fields.find? (fun field => field.name == name) =
      some { name, optional, check := fun d => (decode d).map fun _ => () })
    (hdecode : decode d = .error failure) : schema.Rejects failure (name, d) :=
  ⟨_, hfind, congrArg (Except.map fun _ => ()) hdecode⟩

/-- It accepts what is read in the one case, and rejects what is refused in the other. -/
theorem accepts_or_rejects {name : String} {optional : Bool} {α : Type}
    {decode : Document → Except Failure α} {d : Document} {x : α} {finite : Prop}
    (hfind : schema.fields.find? (fun field => field.name == name) =
      some { name, optional, check := fun d => (decode d).map fun _ => () })
    (hread : finite → decode d = .ok x) (hrefuse : ¬ finite → decode d = .error failure) :
    schema.Accepts (name, d) ∨ schema.Rejects failure (name, d) := by
  by_cases h : finite
  · exact .inl (accepts_of_ok hfind (hread h))
  · exact .inr (rejects_of_error hfind (hrefuse h))

theorem Rejects.not_accepts {member : String × Document} (h : schema.Rejects failure member) :
    ¬ schema.Accepts member := by
  obtain ⟨field, hfind, hcheck⟩ := h
  rintro ⟨field', hfind', hcheck'⟩
  obtain rfl := Option.some.inj (hfind.symm.trans hfind')
  rw [hcheck] at hcheck'
  cases hcheck'

/-- Of members of known fields none of which repeats, the first one that is rejected counts. -/
theorem readMembers_eq_error (present : Fields) {members : Fields}
    (hdistinct : ((present ++ members).map Prod.fst).Nodup)
    (hall : ∀ member ∈ members, schema.Accepts member ∨ schema.Rejects failure member)
    (hsome : ∃ member ∈ members, schema.Rejects failure member) :
    schema.readMembers present (members.map fun (key, d) => (some key, d)) = .error failure := by
  -- Along the members, as long as they are accepted.
  induction members generalizing present with
  | nil =>
    obtain ⟨member, hmember, -⟩ := hsome
    exact absurd hmember List.not_mem_nil
  | cons member members ih =>
    obtain ⟨key, d⟩ := member
    rcases hall (key, d) List.mem_cons_self with haccepts | ⟨field, hfind, hcheck⟩
    · -- This member is read, so the one that is rejected comes later.
      have hrest : ∃ member ∈ members, schema.Rejects failure member := by
        obtain ⟨member, hmember, hrejects⟩ := hsome
        rcases List.mem_cons.mp hmember with rfl | hmember
        · exact absurd haccepts hrejects.not_accepts
        · exact ⟨member, hmember, hrejects⟩
      obtain ⟨field, hfind, hcheck⟩ := haccepts
      rw [List.map_cons, readMembers_cons hdistinct hfind, hcheck]
      rw [List.append_cons present (key, d) members] at hdistinct
      exact ih _ hdistinct (fun member hmember => hall member (List.mem_cons_of_mem _ hmember)) hrest
    · rw [List.map_cons, readMembers_cons hdistinct hfind, hcheck]
      rfl

variable {ν : Type} {number : ν → String}

/-- A record that was written as an object is refused for a member that is rejected, if all others
are rejected for the same reason or not at all. -/
theorem read_object_eq_error (excess : Nat → Failure) (members : List (String × Json ν))
    (hdistinct : (members.map Prod.fst).Nodup)
    (hall : ∀ member ∈ members,
      schema.Accepts (member.1, Document.reading number member.2) ∨
        schema.Rejects failure (member.1, Document.reading number member.2))
    (hsome : ∃ member ∈ members,
      schema.Rejects failure (member.1, Document.reading number member.2)) :
    schema.read excess (Document.reading number (.object members)) = .error failure := by
  rw [Document.reading, memberReadings_eq]
  refine readMembers_eq_error [] ?_ ?_ ?_
  · rw [List.nil_append, memberDocuments, List.map_map]
    exact hdistinct
  · intro member hmember
    obtain ⟨⟨key, value⟩, hmem, rfl⟩ := List.mem_map.mp hmember
    exact hall _ hmem
  · obtain ⟨member, hmember, hrejects⟩ := hsome
    exact ⟨_, List.mem_map.mpr ⟨member, hmember, rfl⟩, hrejects⟩

end Schema

end RegionPooling
