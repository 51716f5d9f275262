import AbstractStore.Environment
import AbstractStore.Object
import AbstractStore.Proofs.Json.Records

/-! The forms of names, addresses and objects.
What is read of them goes by their own tokens, so that they can be parts of whatever is read in
parts. Of an object that is a record or a class it is told where in its form the bindings stand. -/

namespace AbstractStore

open Std Json Codec

theorem Name.regular_codec : Name.codec.Regular := Regular.string.via

theorem Name.regular_keyed {β : Type} {c : Codec β} (regular : c.Regular) :
    (Name.keyed c).Regular := regular.keyed

theorem ModuleId.regular_codec : ModuleId.codec.Regular :=
  (Regular.record (.one "path" .string)).via

theorem Precise.regular_codec : (Address.codec : Codec Precise).Regular := Regular.uint64.via

theorem Monovariant.regular_codec : (Address.codec : Codec Monovariant).Regular :=
  Name.regular_codec.via

theorem Located.regular_codec : (Address.codec : Codec Located).Regular :=
  (Regular.record ((Fields.Parses.one "module" ModuleId.regular_codec).and
    (.one "name" Name.regular_codec) (by simp))).via

theorem Cell.regular_codec {A V : Type} [Value V A] {value : Codec V} (values : value.Regular) :
    (Cell.codec value).Regular := (Regular.record (.one "values" values.set)).via

theorem Environment.regular_frameCodec {A : Type} [Address A]
    (address : (Address.codec : Codec A).Regular) : (frameCodec : Codec (Frame A)).Regular :=
  Name.regular_keyed address

namespace Object

variable {A : Type} [Address A]

theorem regular_bindings (address : (Address.codec : Codec A).Regular) :
    (bindings : Codec (AscMap Name A)).Regular := Name.regular_keyed address

theorem parses_closureFields (address : (Address.codec : Codec A).Regular) :
    (closureFields : Fields (List Name × UInt64 × AscMap Name A)).Parses
      ["parameters", "body", "environment"] fun values p => ∃ u v w, values = [u, v, w] ∧
        (Codec.list Name.codec).Reads u p.1 ∧ Codec.uint64.Reads v p.2.1 ∧
        bindings.Reads w p.2.2 :=
  .three Name.regular_codec.list .uint64 (regular_bindings address) (by simp)

theorem parses_classFields (address : (Address.codec : Codec A).Regular) :
    (classFields : Fields (Name × List A × AscMap Name A)).Parses
      ["name", "superclasses", "scope"] fun values p => ∃ u v w, values = [u, v, w] ∧
        Name.codec.Reads u p.1 ∧ (Codec.list Address.codec).Reads v p.2.1 ∧
        bindings.Reads w p.2.2 :=
  .three Name.regular_codec address.list (regular_bindings address) (by simp)

/-- The kinds of objects that hold something: their names, how it is read and what it makes. -/
inductive Holds : String → (γ : Type) → Codec γ → (γ → Object A) → Prop where
  | boolean : Holds "Boolean" Bool .bool .boolean
  | integer : Holds "Integer" Int64 .int64 .integer
  | string : Holds "String" String .string .string
  | closure : Holds "Closure" _ (.record closureFields) fun p => .closure p.1 p.2.1 p.2.2
  | record : Holds "Record" _ bindings .record
  | classDef : Holds "Class" _ (.record classFields) fun p => .classDef p.1 p.2.1 p.2.2
  | reference : Holds "Reference" A Address.codec .reference

theorem Holds.regular {name : String} {γ : Type} {c : Codec γ} {pack : γ → Object A}
    (holds : Holds name γ c pack) (address : (Address.codec : Codec A).Regular) : c.Regular := by
  cases holds with
  | boolean => exact .bool
  | integer => exact .int64
  | string => exact .string
  | closure => exact .record (parses_closureFields address)
  | record => exact regular_bindings address
  | classDef => exact .record (parses_classFields address)
  | reference => exact address

theorem exists_holds_of_shape? {name : String} {contents : Decoder (Object A)}
    (known : shape? name = some (.holding contents)) :
    ∃ (γ : Type) (c : Codec γ) (pack : γ → Object A),
      Holds name γ c pack ∧ contents = c.decode >>= fun a => pure (pack a) := by
  unfold shape? at known
  split_ifs at known <;> cases known <;> subst name
  · exact ⟨_, _, _, .boolean, rfl⟩
  · exact ⟨_, _, _, .integer, rfl⟩
  · exact ⟨_, _, _, .string, rfl⟩
  · exact ⟨_, _, _, .closure, rfl⟩
  · exact ⟨_, _, _, .record, rfl⟩
  · exact ⟨_, _, _, .classDef, rfl⟩
  · exact ⟨_, _, _, .reference, rfl⟩

theorem bare_of_shape? {name : String} {o : Object A} (known : shape? name = some (.bare o)) :
    o = .top ∨ o = .unit := by
  unfold shape? at known
  split_ifs at known <;> cases known
  · exact .inl rfl
  · exact .inr rfl

theorem parses_codec (address : (Address.codec : Codec A).Regular) :
    (codec : Codec (Object A)).decode.Parses fun v o => Shape.Form shape? o v := by
  refine Shape.parses_decode fun name contents known => ?_
  obtain ⟨γ, c, pack, holds, rfl⟩ := exists_holds_of_shape? known
  exact ((holds.regular address).decode.map pack).regular

theorem regular_codec (address : (Address.codec : Codec A).Regular) :
    (codec : Codec (Object A)).Regular := by
  refine .of_form (parses_codec address) fun v o form => form.isValue fun name contents known => ?_
  obtain ⟨γ, c, pack, holds, rfl⟩ := exists_holds_of_shape? known
  intro w o reads
  obtain ⟨a, reads, -⟩ := ((holds.regular address).decode.map pack).reads_iff.1 reads
  exact (holds.regular address).value reads

/-- An object that holds something is read from its name and the form of what it holds. -/
theorem reads_holding_iff (address : (Address.codec : Codec A).Regular) {v : List Token}
    {o : Object A} (full : o ≠ .top ∧ o ≠ .unit) : codec.Reads v o ↔
      ∃ name γ c pack w a, Holds name γ c pack ∧ v = Shape.holdingTokens name w ∧ c.Reads w a ∧
        o = pack a := by
  refine (parses_codec address).reads_iff.trans ?_
  constructor
  · intro form
    cases form with
    | bare known | null known => exact ((bare_of_shape? known).elim full.1 full.2).elim
    | holding known reads =>
      obtain ⟨γ, c, pack, holds, rfl⟩ := exists_holds_of_shape? known
      obtain ⟨a, reads, same⟩ := ((holds.regular address).decode.map pack).reads_iff.1 reads
      exact ⟨_, γ, c, pack, _, a, holds, rfl, reads, same⟩
  · rintro ⟨name, γ, c, pack, w, a, holds, rfl, reads, rfl⟩
    have packed := ((holds.regular address).decode.map pack).reads ⟨a, reads, rfl⟩
    cases holds <;> exact .holding rfl packed

theorem reads_record_iff (address : (Address.codec : Codec A).Regular) {v : List Token}
    {m : AscMap Name A} : codec.Reads v (.record m) ↔
      ∃ w, v = Shape.holdingTokens "Record" w ∧ bindings.Reads w m := by
  refine (reads_holding_iff address (o := .record m) ⟨nofun, nofun⟩).trans ?_
  constructor
  · rintro ⟨name, γ, c, pack, w, a, holds, rfl, reads, same⟩
    cases holds <;> cases same
    exact ⟨w, rfl, reads⟩
  · rintro ⟨w, rfl, reads⟩
    exact ⟨_, _, _, _, w, m, .record, rfl, reads, rfl⟩

theorem reads_classDef_iff (address : (Address.codec : Codec A).Regular) {v : List Token}
    {name : Name} {superclasses : List A} {m : AscMap Name A} :
    codec.Reads v (.classDef name superclasses m) ↔ ∃ w x y z, v = Shape.holdingTokens "Class" w ∧
      Arranges ["name", "superclasses", "scope"] [x, y, z] w ∧ Name.codec.Reads x name ∧
      (Codec.list Address.codec).Reads y superclasses ∧ bindings.Reads z m := by
  refine (reads_holding_iff address (o := .classDef name superclasses m) ⟨nofun, nofun⟩).trans ?_
  constructor
  · rintro ⟨_, γ, c, pack, w, a, holds, rfl, reads, same⟩
    cases holds <;> cases same
    obtain ⟨_, arranged, x, y, z, rfl, reads⟩ := 
      (Codec.reads_record_iff (parses_classFields address)).1 reads
    exact ⟨w, x, y, z, rfl, arranged, reads⟩
  · rintro ⟨w, x, y, z, rfl, arranged, reads⟩
    exact ⟨_, _, _, _, w, (name, superclasses, m), .classDef, rfl,
      (Codec.reads_record_iff (parses_classFields address)).2 ⟨_, arranged, x, y, z, rfl, reads⟩,
      rfl⟩

end Object

end AbstractStore
