import DecisionLedger.Bytes

/-! # Hexadecimal text

Two digits a byte, the high one first, written in lower case and read in either.
-/

namespace DecisionLedger.Hex

def digit (value : UInt8) : Char :=
  if value < 10 then Char.ofNat (value.toNat + '0'.toNat)
  else Char.ofNat (value.toNat - 10 + 'a'.toNat)

def value? (digit : Char) : Option UInt8 :=
  if '0' ≤ digit && digit ≤ '9' then some (UInt8.ofNat (digit.toNat - '0'.toNat))
  else if 'a' ≤ digit && digit ≤ 'f' then some (UInt8.ofNat (digit.toNat - 'a'.toNat + 10))
  else if 'A' ≤ digit && digit ≤ 'F' then some (UInt8.ofNat (digit.toNat - 'A'.toNat + 10))
  else none

def encode (bytes : Bytes) : String :=
  String.ofList (bytes.flatMap fun byte => [digit (byte / 16), digit (byte % 16)])

/-- The bytes of hexadecimal digits behind those already read, which are `reversed`. -/
def decodeFrom (reversed : Bytes) : List Char → Option Bytes
  | [] => some reversed.reverse
  | [_] => none
  | high :: low :: rest =>
    match value? high, value? low with
    | some upper, some lower => decodeFrom ((upper * 16 + lower) :: reversed) rest
    | _, _ => none

def decode? (text : String) : Option Bytes :=
  decodeFrom [] text.toList

end DecisionLedger.Hex
