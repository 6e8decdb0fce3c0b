import Aperture.Word.Basic

namespace Aperture

/-- A size as a whole number of units and hundredths of a unit. -/
structure ByteSize where
  whole : Nat
  hundredths : Nat
  /-- The unit is 1024 to this power. -/
  unit : Nat
deriving DecidableEq

namespace ByteSize

def unitNames : List String := ["B", "KiB", "MiB", "GiB", "TiB", "PiB", "EiB"]

/-- Goes up from a unit as long as the next one has a name and is not above `n`. -/
def unitFrom (n unit : Nat) : Nat :=
  if unit + 1 < unitNames.length ∧ n >>> (10 * (unit + 1)) ≠ 0 then unitFrom n (unit + 1) else unit
termination_by unitNames.length - unit

def unitOf (n : Nat) : Nat := unitFrom n 0

def ofNat (n : Nat) : ByteSize :=
  let shift := 10 * unitOf n
  { whole := n >>> shift
    hundredths := (n % (1 <<< shift) * 100) >>> shift
    unit := unitOf n }

/-- The decimals of some hundredths, without trailing zeros. -/
def decimals (h : Nat) : String :=
  if h = 0 then ""
  else if h % 10 = 0 then "." ++ toString (h / 10)
  else if h < 10 then ".0" ++ toString h
  else "." ++ toString h

instance : ToString ByteSize :=
  ⟨fun b => toString b.whole ++ decimals b.hundredths ++ unitNames.getD b.unit ""⟩

def readDecimals : List Char → Option Nat
  | [] => some 0
  | ['.', a] => some (10 * (a.toNat - '0'.toNat))
  | ['.', a, b] => some (10 * (a.toNat - '0'.toNat) + (b.toNat - '0'.toNat))
  | _ => none

def ofText? (text : String) : Option ByteSize := do
  let number := text.toList.takeWhile fun c => c.isDigit || c == '.'
  let name := text.toList.drop number.length
  let hundredths ← readDecimals (number.dropWhile Char.isDigit)
  let unit ← unitNames.idxOf? (String.ofList name)
  return { whole := Nat.ofDigitChars 10 (number.takeWhile Char.isDigit) 0, hundredths, unit }

/-- A hundred times the number of bytes that a size stands for. -/
def hundredfold (b : ByteSize) : Nat :=
  (100 * b.whole + b.hundredths) <<< (10 * b.unit)

end ByteSize

def sizeText (w : Word) : String := toString (ByteSize.ofNat w.toNat)

end Aperture
