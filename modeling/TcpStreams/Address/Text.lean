import TcpStreams.Address

/-!
# The text of addresses

Hosts of version 4 are written in dotted decimal.  Hosts of version 6 are written as eight groups of
lowercase hexadecimal digits without leading zeros, the first of the longest runs of two or more
zero groups shortened to a double colon; a host of version 4 mapped into version 6 keeps its dotted
form.  An endpoint of version 6 stands in brackets, with the scope inside them unless it is zero;
the flow information is never shown.
-/

namespace TcpStreams

/-- The bytes of a 32-bit number, the most significant first. -/
def octets (n : Nat) : List Nat :=
  [n / 0x1000000 % 256, n / 0x10000 % 256, n / 0x100 % 256, n % 256]

/-- Four bytes in dotted decimal. -/
def dottedText (n : Nat) : String :=
  ".".intercalate ((octets n).map toString)

namespace SixGroups

/-- The eight 16-bit groups of a host of version 6, the most significant first. -/
def ofBits (bits : BitVec 128) : List Nat :=
  (List.range 8).map fun i => (bits.toNat >>> (16 * (7 - i))) % 0x10000

/-- Where the first of the longest runs of zero groups begins, and how long it is. -/
def longestZeroRun (groups : List Nat) : Nat × Nat :=
  (List.range groups.length).foldl (fun best i =>
    let size := ((groups.drop i).takeWhile (· == 0)).length
    if best.2 < size then (i, size) else best) (0, 0)

/-- Groups in hexadecimal, with colons between them. -/
def joined (groups : List Nat) : String :=
  ":".intercalate (groups.map fun group => String.ofList (Nat.toDigits 16 group))

/-- The shortest form of eight groups. -/
def text (groups : List Nat) : String :=
  let (start, size) := longestZeroRun groups
  if 2 ≤ size then joined (groups.take start) ++ "::" ++ joined (groups.drop (start + size))
  else joined groups

end SixGroups

namespace Host

/-- The text of a host. -/
def text : Host → String
  | v4 bits => dottedText bits.toNat
  | v6 bits =>
    if bits.toNat / 0x100000000 = 0xffff then "::ffff:" ++ dottedText (bits.toNat % 0x100000000)
    else SixGroups.text (SixGroups.ofBits bits)

end Host

namespace Endpoint

/-- The text of an endpoint. -/
def text : Endpoint → String
  | v4 host port => (Host.v4 host).text ++ ":" ++ toString port.toNat
  | v6 host port _ scope =>
    let zone := if scope = 0 then "" else "%" ++ toString scope.toNat
    "[" ++ (Host.v6 host).text ++ zone ++ "]:" ++ toString port.toNat

end Endpoint

end TcpStreams
