import DecisionLedger.Bytes

/-! # Base64 text

The standard alphabet, six bits a character, without padding at the end.
-/

namespace DecisionLedger.Base64

/-- The sixty-four digits in order of value. -/
def alphabet : List Char :=
  "ABCDEFGHIJKLMNOPQRSTUVWXYZabcdefghijklmnopqrstuvwxyz0123456789+/".toList

def digit (value : Nat) : Char :=
  alphabet.getD value 'A'

/-- Three bytes give four digits; a rest of one or two bytes gives two or three. -/
def digits : Bytes → List Char
  | [] => []
  | [a] =>
    let n := a.toNat * 16
    [digit (n / 64), digit (n % 64)]
  | [a, b] =>
    let n := (a.toNat * 256 + b.toNat) * 4
    [digit (n / 4096), digit (n / 64 % 64), digit (n % 64)]
  | a :: b :: c :: rest =>
    let n := (a.toNat * 256 + b.toNat) * 256 + c.toNat
    digit (n / 262144) :: digit (n / 4096 % 64) :: digit (n / 64 % 64) :: digit (n % 64) ::
      digits rest

/-- The base64 text of a byte string, without padding. -/
def encode (bytes : Bytes) : String :=
  String.ofList (digits bytes)

end DecisionLedger.Base64
