/-!
UTF-8 over lists of bytes. A byte sequence is cut into pieces: the characters it encodes, and the
maximal malformed runs between them.
-/

namespace ProtoSchema.Utf8

def encode (cs : List Char) : List UInt8 :=
  cs.flatMap String.utf8EncodeChar

def bytes (s : String) : List UInt8 :=
  encode s.toList

inductive Piece where
  | char (c : Char)
  | malformed (bytes : List UInt8)
deriving DecidableEq, Repr

/-- How many bytes a lead byte announces, and the range its second byte must lie in. -/
def lead (b : UInt8) : Option (Nat × UInt8 × UInt8) :=
  if 0xC2 ≤ b && b ≤ 0xDF then some (2, 0x80, 0xBF)
  else if b == 0xE0 then some (3, 0xA0, 0xBF)
  else if b == 0xED then some (3, 0x80, 0x9F)
  else if 0xE1 ≤ b && b ≤ 0xEF then some (3, 0x80, 0xBF)
  else if b == 0xF0 then some (4, 0x90, 0xBF)
  else if b == 0xF4 then some (4, 0x80, 0x8F)
  else if 0xF1 ≤ b && b ≤ 0xF3 then some (4, 0x80, 0xBF)
  else none

def isContinuation (b : UInt8) : Bool :=
  0x80 ≤ b && b ≤ 0xBF

/-- The low six bits of a continuation byte. -/
def tail (b : UInt8) : Nat :=
  b.toNat % 64

/-- The first piece of a nonempty byte sequence, and how many further bytes it takes. -/
def front (b : UInt8) (rest : List UInt8) : Piece × Nat :=
  if b < 0x80 then (.char (Char.ofNat b.toNat), 0)
  else
    match lead b, rest with
    | some (width, lo, hi), b₁ :: rest =>
      if lo ≤ b₁ && b₁ ≤ hi then
        if width = 2 then (.char (Char.ofNat (b.toNat % 32 * 64 + tail b₁)), 1)
        else
          match rest with
          | b₂ :: rest =>
            if isContinuation b₂ then
              if width = 3 then
                (.char (Char.ofNat ((b.toNat % 16 * 64 + tail b₁) * 64 + tail b₂)), 2)
              else
                match rest with
                | b₃ :: _ =>
                  if isContinuation b₃ then
                    (.char (Char.ofNat
                      (((b.toNat % 8 * 64 + tail b₁) * 64 + tail b₂) * 64 + tail b₃)), 3)
                  else (.malformed [b, b₁, b₂], 2)
                | [] => (.malformed [b, b₁, b₂], 2)
            else (.malformed [b, b₁], 1)
          | [] => (.malformed [b, b₁], 1)
      else (.malformed [b], 0)
    | _, _ => (.malformed [b], 0)

/-- A byte sequence as characters and maximal malformed runs, in order. -/
def pieces : List UInt8 → List Piece
  | [] => []
  | b :: rest => (front b rest).1 :: pieces (rest.drop (front b rest).2)
termination_by bs => bs.length
decreasing_by simp only [List.length_cons, List.length_drop]; omega

def Piece.char? : Piece → Option Char
  | .char c => some c
  | .malformed _ => none

/-- The text a byte sequence encodes, if it is well formed. -/
def decode? (bs : List UInt8) : Option (List Char) :=
  (pieces bs).mapM Piece.char?

/-- The string a byte sequence encodes, if it is well formed. -/
def string? (bs : List UInt8) : Option String :=
  (decode? bs).map String.ofList

/-- Stands in for a malformed run. -/
def replacement : Char :=
  Char.ofNat 0xFFFD

/-- The text of a byte sequence, every malformed run read as one replacement character. -/
def lossy (bs : List UInt8) : String :=
  String.ofList ((pieces bs).map fun p => p.char?.getD replacement)

end ProtoSchema.Utf8
