namespace Aperture

/-- Lower-case hexadecimal digits without leading zeros, after `0x`. -/
def hex (n : Nat) : String :=
  "0x" ++ String.ofList (Nat.toDigits 16 n)

end Aperture
