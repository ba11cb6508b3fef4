import Webthree.Common
import Webthree.Lib.Numeral

/-!
# ICAP addresses

`ICAP` on strings of ASCII characters, with `toBase36` and `fromBase36`: the check digits, and addresses as base 36 numerals.
-/

namespace Webthree

/-- `boost::to_upper` -/
def toUpper (s : List Char) : List Char := s.map Char.toUpper

/-- `c_alphabet` -/
def c_alphabet : List Char := "0123456789ABCDEFGHIJKLMNOPQRSTUVWXYZ".toList

/-- `toBase36`, without a digit for zero. -/
@[semireducible] def toBase36 (a : Nat) : List Char :=
  if a = 0 then [] else toBase36 (a / 36) ++ [c_alphabet.getD (a - a / 36 * 36) '0']
termination_by a
decreasing_by omega

/-- `fromBase36`, in the arithmetic of an address. -/
def fromBase36 (h : List Char) : Address :=
  h.foldl (fun ret c => ret * 36 + BitVec.ofInt 160 (if c < 'A' then (c.toNat : Int) - 48 else (c.toNat : Int) - 65 + 10)) 0

/-- `ICAP::Type` -/
inductive ICAPType where
  | Invalid
  | Direct
  | Indirect
deriving DecidableEq

/-- `ICAP` -/
structure ICAP where
  m_type : ICAPType := .Invalid
  m_direct : Address := 0
  m_client : List Char := []
  m_institution : List Char := []
  m_asset : List Char := []
deriving DecidableEq

namespace ICAP

/-- `ICAP(_target)` -/
def direct (target : Address) : ICAP := { m_type := .Direct, m_direct := target }

/-- `iban` -/
def iban (c d : List Char) : List Char :=
  let c := toUpper c
  let d := toUpper d
  let tot : Int := (d ++ c ++ ['0', '0']).foldl
    (fun tot x => if 'A' ≤ x then tot * 100 + x.toNat - 65 + 10 else tot * 10 + x.toNat - 48) 0
  let check := (98 - tot.tmod 97).toNat
  c ++ (numeral 10 check).leftpad 2 '0' ++ d

/-- `fromIBAN` -/
def fromIBAN (i : List Char) : List Char × List Char :=
  if i.length < 4 then ([], [])
  else
    let i := toUpper i
    let c := i.take 2
    let d := i.drop 4
    if iban c d ≠ i then ([], []) else (c, d)

/-- `decoded`; `none` for `InvalidICAP`. -/
def decoded (encoded : List Char) : Option ICAP :=
  let (country, data) := fromIBAN encoded
  if country ≠ ['X', 'E'] then none
  else if data.length = 30 ∨ data.length = 31 then some { m_type := .Direct, m_direct := fromBase36 data }
  else if data.length = 16 then
    let m_asset := data.take 3
    if m_asset = ['X', 'E', 'T'] ∨ m_asset = ['E', 'L', 'E'] then
      some { m_type := .Indirect, m_asset := m_asset, m_institution := (data.drop 3).take 4, m_client := data.drop 7 }
    else none
  else none

/-- The characters that `encoded` accepts in names. -/
def nameChars : List Char := "qwertyuiopasdfghjklzxcvbnmQWERTYUIOPASDFGHJKLZXCVBNM1234567890".toList

/-- `encoded`; `none` for `InvalidICAP`. -/
def encoded (i : ICAP) : Option (List Char) :=
  match i.m_type with
  | .Direct => some (iban ['X', 'E'] ((toBase36 i.m_direct.toNat).leftpad 30 '0'))
  | .Indirect =>
    if !(i.m_asset.all fun c => nameChars.contains c) || !(i.m_institution.all fun c => nameChars.contains c) ||
        !(i.m_client.all fun c => nameChars.contains c) || i.m_asset.length ≠ 3 ||
        (toUpper i.m_asset ≠ ['X', 'E', 'T'] && toUpper i.m_asset ≠ ['E', 'L', 'E']) || i.m_institution.length ≠ 4 ||
        i.m_client.length ≠ 9 then none
    else some (iban ['X', 'E'] (i.m_asset ++ i.m_institution ++ i.m_client))
  | .Invalid => none

end ICAP

end Webthree
