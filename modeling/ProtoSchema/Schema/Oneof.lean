import ProtoSchema.Schema.Message

/-!
Oneofs and their members. A message lists its fields and its oneofs, and each points into the
other list.
-/

namespace ProtoSchema.Message

/-- Adds a field, to the oneof with the given index if there is one, with the pair type of a map
field before it. -/
def addField (m : Message) (oneof : Option Nat) (field : Field) (entry : Option Message) :
    Message :=
  { m with
    nested := m.nested ++ entry.toList
    fields := m.fields ++ [{ field with oneofIndex := oneof }]
    oneofs :=
      match oneof with
      | some i => m.oneofs.modify i fun o => { o with fields := o.fields ++ [m.fields.length] }
      | none => m.oneofs }

/-- The first name of `base`, `Xbase`, `XXbase`, … that is not taken. -/
def freshName (taken : List String) (base : String) : String :=
  let candidates := (List.range (taken.length + 1)).map fun k =>
    String.ofList (List.replicate k 'X' ++ base.toList)
  (candidates.find? fun name => !taken.contains name).getD base

/-- Puts the field with the given index into a oneof of its own. -/
def addSyntheticOneof (m : Message) (index : Nat) : Message :=
  match m.fields[index]? with
  | none => m
  | some field =>
    let taken := m.oneofs.map Oneof.name ++ m.fields.map Field.name
    { m with
      fields := m.fields.modify index fun f => { f with oneofIndex := some m.oneofs.length }
      oneofs := m.oneofs ++ [{ name := freshName taken ("_" ++ field.name), fields := [index] }] }

/-- The fields that are marked optional in a `proto3` file. -/
def optionalIndexes (m : Message) : List Nat :=
  (List.range m.fields.length).filter fun i => (m.fields[i]?.map Field.proto3Optional).getD false

/-- Every field marked optional in a `proto3` file gets a oneof of its own, behind the declared
ones. -/
def withSyntheticOneofs (m : Message) : Message :=
  m.optionalIndexes.foldl addSyntheticOneof m

end ProtoSchema.Message
