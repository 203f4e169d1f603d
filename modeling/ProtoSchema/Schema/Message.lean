import ProtoSchema.Schema.Field

/-!
Messages and enums.
-/

namespace ProtoSchema

structure Oneof where
  name : String
  /-- The places of the members in the message's list of fields. -/
  fields : List Nat := []
  options : Options := []
deriving DecidableEq, Repr

/-- Field numbers left open to extensions; `stop` is not one of them. -/
structure ExtensionRange where
  start : Int32
  stop : Int32
  options : Options := []
deriving DecidableEq, Repr

/-- Numbers that may not be used. In a message `stop` is not one of them, in an enum it is. -/
structure ReservedRange where
  start : Int32
  stop : Int32
deriving DecidableEq, Repr

structure EnumValue where
  name : String
  number : Int32
  options : Options := []
deriving DecidableEq, Repr

structure Enum where
  name : String
  values : List EnumValue := []
  reservedRanges : List ReservedRange := []
  reservedNames : List String := []
  options : Options := []
deriving DecidableEq, Repr

structure Message where
  name : String
  fields : List Field := []
  extensions : List Field := []
  nested : List Message := []
  enums : List Enum := []
  oneofs : List Oneof := []
  extensionRanges : List ExtensionRange := []
  reservedRanges : List ReservedRange := []
  reservedNames : List String := []
  options : Options := []
deriving Repr

namespace Message

/-- How deep messages may nest, the outermost one counted. -/
def maxNesting : Nat :=
  32

def isMapEntry (m : Message) : Bool :=
  Options.isSet m.options "map_entry"

mutual

def decEq : (a b : Message) → Decidable (a = b)
  | ⟨n, f, x, m, e, o, er, rr, rn, op⟩, ⟨n', f', x', m', e', o', er', rr', rn', op'⟩ =>
    match decEqList m m' with
    | isFalse h => isFalse fun heq => h (by injection heq)
    | isTrue h =>
      if hs : n = n' ∧ f = f' ∧ x = x' ∧ e = e' ∧ o = o' ∧ er = er' ∧ rr = rr' ∧ rn = rn' ∧
          op = op' then
        isTrue (by
          obtain ⟨rfl, rfl, rfl, rfl, rfl, rfl, rfl, rfl, rfl⟩ := hs
          rw [h])
      else
        isFalse fun heq => hs (by
          injection heq
          refine ⟨?_, ?_, ?_, ?_, ?_, ?_, ?_, ?_, ?_⟩ <;> assumption)

def decEqList : (as bs : List Message) → Decidable (as = bs)
  | [], [] => isTrue rfl
  | [], _ :: _ => isFalse (by simp)
  | _ :: _, [] => isFalse (by simp)
  | a :: as, b :: bs =>
    match decEq a b, decEqList as bs with
    | isTrue h, isTrue hs => isTrue (by rw [h, hs])
    | isFalse h, _ => isFalse fun heq => h (List.cons.inj heq).1
    | _, isFalse hs => isFalse fun heq => hs (List.cons.inj heq).2

end

instance : DecidableEq Message :=
  decEq

end Message

end ProtoSchema
