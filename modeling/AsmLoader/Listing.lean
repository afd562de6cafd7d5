import AsmLoader.Machine.Decoding
/-!
# Listings

Machine code as a text with one line for each instruction: its address, its bytes and what it
does. Where no instruction can be decoded a line shows the bytes that have been read to find that
out.
-/

namespace AsmLoader.Listing

open Machine (Decoded decode)

structure Line where
  address : UInt64
  bytes : List UInt8
  decoded : Option Decoded
  deriving DecidableEq, Repr

def lines (address : UInt64) (code : List UInt8) : List Line :=
  match code with
  | [] => []
  | b :: rest =>
    let (decoded, read) := decode address (b :: rest)
    let size := max 1 read
    ⟨address, (b :: rest).take size, decoded⟩ ::
      lines (address + UInt64.ofNat size) (rest.drop (size - 1))
termination_by code.length
decreasing_by
  simp only [List.length_drop, List.length_cons]
  omega

def byteText (b : UInt8) : String :=
  Text.hexPadded 2 b.toNat

def bytesWidth : Nat := 20

def padRight (width : Nat) (s : String) : String :=
  s ++ String.ofList (List.replicate (width - s.length) ' ')

def Line.text (l : Line) : String :=
  let what := match l.decoded with
    | some decoded => decoded.text
    | none => "(bad)"
  Text.hexPadded 16 l.address.toNat ++ " " ++
    padRight bytesWidth (String.join (l.bytes.map byteText)) ++ " " ++ what ++ "\n"

def render (address : UInt64) (code : List UInt8) : String :=
  String.join ((lines address code).map Line.text)

end AsmLoader.Listing
