import ShredstreamProxy.Protos
import ShredstreamProxy.Lib.Digits

/-!
# Texts of addresses

The routes of a device name their destinations by texts, which the proxy parses as IP addresses
of either family.  The parser is the one of the standard library: dotted decimal octets without
redundant zeros, or groups of hexadecimal digits with at most one run of zero groups left out and
possibly an IPv4 address at the end.

Main results:

- Theorem {lit}`readIpv4Addr_eq_some_iff`: an IPv4 address is read from its own text only.
- Theorem {lit}`parseIpAddr_v4_iff`: the texts that denote an IPv4 address.
-/

namespace ShredstreamProxy

open Digits

/-! ## Addresses -/

/-- The IPv4 address with the given octets. -/
def ofOctets (a b c d : Fin 256) : BitVec 32 :=
  BitVec.ofNat 32 (((a.val * 256 + b.val) * 256 + c.val) * 256 + d.val)

/-- An octet of an IPv4 address, the most significant one first. -/
def octet (addr : BitVec 32) (i : Nat) : Nat := addr.toNat / 256 ^ (3 - i) % 256

/-- The IPv6 address with the given groups. -/
def ofGroups (groups : List (Fin 65536)) : BitVec 128 :=
  BitVec.ofNat 128 (groups.foldl (fun v g => v * 65536 + g.val) 0)

/-- A group of an IPv6 address, the most significant one first. -/
def group (addr : BitVec 128) (i : Nat) : Nat := addr.toNat / 65536 ^ (7 - i) % 65536

namespace IpAddr

/-- The address names a multicast group. -/
def isMulticast : IpAddr → Bool
  | v4 addr => 224 ≤ octet addr 0 ∧ octet addr 0 ≤ 239
  | v6 addr => group addr 0 &&& 0xff00 = 0xff00

/-- IPv4 addresses come before IPv6 addresses, and each family is ordered by octets. -/
def rank : IpAddr → Nat
  | v4 addr => addr.toNat
  | v6 addr => 2 ^ 32 + addr.toNat

/-- Addresses are told apart by their rank. -/
theorem rank_injective : Function.Injective rank := by
  intro a b h
  cases a with
  | v4 a =>
      cases b with
      | v4 b => exact congrArg v4 (BitVec.eq_of_toNat_eq h)
      | v6 b =>
          have := a.isLt
          simp only [rank] at h
          omega
  | v6 a =>
      cases b with
      | v4 b =>
          have := b.isLt
          simp only [rank] at h
          omega
      | v6 b => exact congrArg v6 (BitVec.eq_of_toNat_eq (Nat.add_left_cancel h))

instance : LinearOrder IpAddr := LinearOrder.lift' rank rank_injective

end IpAddr

/-! ## The parser -/

/-- Read one given character. -/
def readChar (c : Char) : List Char → Option (List Char)
  | [] => none
  | x :: text => if x = c then some text else none

/-- Read a separator, except in front of the first item, and then an item. -/
def readSeparator {α : Type} (separator : Char) (first : Bool)
    (inner : List Char → Option (α × List Char)) (text : List Char) : Option (α × List Char) :=
  if first then inner text else (readChar separator text).bind inner

/-- Read four decimal octets. -/
def readIpv4Addr (text : List Char) : Option (BitVec 32 × List Char) := do
  let (a, text) ← readSeparator '.' true (readNumber 10 3 false 256) text
  let (b, text) ← readSeparator '.' false (readNumber 10 3 false 256) text
  let (c, text) ← readSeparator '.' false (readNumber 10 3 false 256) text
  let (d, text) ← readSeparator '.' false (readNumber 10 3 false 256) text
  some (ofOctets a b c d, text)

/-- The last two groups of an address that ends in an IPv4 address. -/
def embedded (addr : BitVec 32) : List (Fin 65536) :=
  [Fin.ofNat 65536 (addr.toNat / 65536), Fin.ofNat 65536 addr.toNat]

/-- Read up to the given number of groups.  While two are left, an IPv4 address is tried first,
and it ends the address. -/
def readGroups : Nat → Bool → List Char → List (Fin 65536) × Bool × List Char
  | 0, _, text => ([], false, text)
  | n + 1, first, text =>
      match if 1 ≤ n then readSeparator ':' first readIpv4Addr text else none with
      | some (addr, text) => (embedded addr, true, text)
      | none =>
          match readSeparator ':' first (readNumber 16 4 true 65536) text with
          | none => ([], false, text)
          | some (g, text) =>
              let (groups, ipv4, text) := readGroups n false text
              (g :: groups, ipv4, text)

/-- Read eight groups, or fewer with one run of zero groups left out. -/
def readIpv6Addr (text : List Char) : Option (BitVec 128 × List Char) := do
  let (head, headIpv4, text) := readGroups 8 true text
  if head.length = 8 then
    some (ofGroups head, text)
  else if headIpv4 then
    none
  else
    let text ← readChar ':' text
    let text ← readChar ':' text
    let (tail, _, text) := readGroups (8 - (head.length + 1)) true text
    let zeros := List.replicate (8 - head.length - tail.length) 0
    some (ofGroups (head ++ zeros ++ tail), text)

/-- Read an address of either family. -/
def readIpAddr (text : List Char) : Option (IpAddr × List Char) :=
  match readIpv4Addr text with
  | some (addr, text) => some (.v4 addr, text)
  | none => (readIpv6Addr text).map fun r => (.v6 r.1, r.2)

/-- The whole text must be read. -/
def parseWith {α : Type} (read : List Char → Option (α × List Char)) (text : List Char) :
    Option α :=
  match read text with
  | some (a, []) => some a
  | _ => none

def parseIpAddr (text : List Char) : Option IpAddr := parseWith readIpAddr text

/-- A text of more than fifteen bytes is not looked at. -/
def parseIpv4Addr (text : List Char) : Option (BitVec 32) :=
  if 15 < (String.ofList text).utf8ByteSize then none else parseWith readIpv4Addr text

/-- Read a whole text as a number of eight bits, which may have a sign and leading zeros. -/
def parseU8 (text : List Char) : Option (Fin 256) :=
  let digits := if text.head? = some '+' then text.tail else text
  parseWith (readNumber 10 digits.length true 256) digits

/-! ## Texts of IPv4 addresses -/

/-- The text of an IPv4 address. -/
def ipv4Text (addr : BitVec 32) : List Char :=
  Nat.toDigits 10 (octet addr 0) ++ '.' :: (Nat.toDigits 10 (octet addr 1) ++
    '.' :: (Nat.toDigits 10 (octet addr 2) ++ '.' :: Nat.toDigits 10 (octet addr 3)))

/-- A character is read when the text starts with it. -/
theorem readChar_eq_some_iff {c : Char} {text rest : List Char} :
    readChar c text = some rest ↔ text = c :: rest := by
  cases text with
  | nil => simp [readChar]
  | cons x text =>
      simp only [readChar]
      split
      · rename_i hx
        rw [Option.some.injEq, hx, List.cons.injEq]
        simp
      · rename_i hx
        simp [hx]

theorem noDigit_dot (text : List Char) : NoDigit ('.' :: text) := by
  intro c hc
  obtain rfl : '.' = c := by simpa using hc
  rfl

theorem octet_lt (addr : BitVec 32) (i : Nat) : octet addr i < 256 :=
  Nat.mod_lt _ (by decide)

/-- An IPv4 address is made of its octets. -/
theorem ofOctets_octet (addr : BitVec 32) :
    ofOctets ⟨octet addr 0, octet_lt addr 0⟩ ⟨octet addr 1, octet_lt addr 1⟩
      ⟨octet addr 2, octet_lt addr 2⟩ ⟨octet addr 3, octet_lt addr 3⟩ = addr := by
  apply BitVec.eq_of_toNat_eq
  have := addr.isLt
  simp only [ofOctets, octet, BitVec.toNat_ofNat]
  omega

/-- The octets of an address are those that it is made of. -/
theorem octet_ofOctets (a b c d : Fin 256) :
    octet (ofOctets a b c d) 0 = a ∧ octet (ofOctets a b c d) 1 = b ∧
      octet (ofOctets a b c d) 2 = c ∧ octet (ofOctets a b c d) 3 = d := by
  simp only [ofOctets, octet, BitVec.toNat_ofNat]
  refine ⟨?_, ?_, ?_, ?_⟩ <;> omega

/-- An octet is read from its own text. -/
theorem readNumber_octet_iff {n : Fin 256} {text rest : List Char} :
    readNumber 10 3 false 256 text = some (n, rest) ↔
      text = Nat.toDigits 10 n ++ rest ∧ NoDigit rest := by
  have hlength : (Nat.toDigits 10 n.val).length ≤ 3 := by
    rw [Nat.length_toDigits_le_iff (by decide) (by decide)]
    exact n.isLt.trans (by decide)
  rw [readNumber_eq_some_iff]
  exact ⟨fun h => ⟨h.1, h.2.1⟩, fun h => ⟨h.1, h.2, hlength⟩⟩

/-- A later octet is read from a dot and its own text. -/
theorem readSeparator_octet_iff {n : Fin 256} {text rest : List Char} :
    readSeparator '.' false (readNumber 10 3 false 256) text = some (n, rest) ↔
      text = '.' :: (Nat.toDigits 10 n ++ rest) ∧ NoDigit rest := by
  simp only [readSeparator, Bool.false_eq_true, if_false, Option.bind_eq_some_iff,
    readChar_eq_some_iff, readNumber_octet_iff]
  constructor
  · rintro ⟨text', rfl, rfl, hno⟩
    exact ⟨rfl, hno⟩
  · rintro ⟨rfl, hno⟩
    exact ⟨_, rfl, rfl, hno⟩

/-- The octets are read one after the other; each but the last is followed by a dot. -/
theorem readIpv4Addr_cases {addr : BitVec 32} {text rest : List Char} :
    readIpv4Addr text = some (addr, rest) ↔
      ∃ a b c d : Fin 256, addr = ofOctets a b c d ∧ NoDigit rest ∧
        text = Nat.toDigits 10 a ++ '.' :: (Nat.toDigits 10 b ++
          '.' :: (Nat.toDigits 10 c ++ '.' :: (Nat.toDigits 10 d ++ rest))) := by
  constructor
  · intro h
    unfold readIpv4Addr at h
    rcases Option.bind_eq_some_iff.mp h with ⟨⟨a, text₁⟩, ha, h⟩
    rcases Option.bind_eq_some_iff.mp h with ⟨⟨b, text₂⟩, hb, h⟩
    rcases Option.bind_eq_some_iff.mp h with ⟨⟨c, text₃⟩, hc, h⟩
    rcases Option.bind_eq_some_iff.mp h with ⟨⟨d, text₄⟩, hd, h⟩
    rw [Option.some.injEq, Prod.mk.injEq] at h
    obtain ⟨rfl, rfl⟩ := h
    have ha' := (readNumber_octet_iff.mp ha).1
    have hb' := (readSeparator_octet_iff.mp hb).1
    have hc' := (readSeparator_octet_iff.mp hc).1
    have hd' := readSeparator_octet_iff.mp hd
    exact ⟨a, b, c, d, rfl, hd'.2, by rw [ha', hb', hc', hd'.1]⟩
  · rintro ⟨a, b, c, d, rfl, hno, rfl⟩
    refine Option.bind_eq_some_iff.mpr
      ⟨(a, _), readNumber_octet_iff.mpr ⟨rfl, noDigit_dot _⟩, ?_⟩
    refine Option.bind_eq_some_iff.mpr
      ⟨(b, _), readSeparator_octet_iff.mpr ⟨rfl, noDigit_dot _⟩, ?_⟩
    refine Option.bind_eq_some_iff.mpr
      ⟨(c, _), readSeparator_octet_iff.mpr ⟨rfl, noDigit_dot _⟩, ?_⟩
    exact Option.bind_eq_some_iff.mpr ⟨(d, rest), readSeparator_octet_iff.mpr ⟨rfl, hno⟩, rfl⟩

/-- An IPv4 address is read from its own text only. -/
theorem readIpv4Addr_eq_some_iff {addr : BitVec 32} {text rest : List Char} :
    readIpv4Addr text = some (addr, rest) ↔ text = ipv4Text addr ++ rest ∧ NoDigit rest := by
  rw [readIpv4Addr_cases]
  constructor
  · rintro ⟨a, b, c, d, rfl, hno, rfl⟩
    rcases octet_ofOctets a b c d with ⟨ha, hb, hc, hd⟩
    refine ⟨?_, hno⟩
    simp [ipv4Text, ha, hb, hc, hd]
  · rintro ⟨rfl, hno⟩
    refine ⟨_, _, _, _, (ofOctets_octet addr).symm, hno, ?_⟩
    simp [ipv4Text]

/-- A text is parsed when all of it is read. -/
theorem parseWith_eq_some_iff {α : Type} {read : List Char → Option (α × List Char)}
    {text : List Char} {a : α} : parseWith read text = some a ↔ read text = some (a, []) := by
  unfold parseWith
  split
  · rename_i b hread
    simp [hread]
  · rename_i hnot
    constructor
    · intro h
      contradiction
    · intro h
      exact absurd h (hnot a)

/-- The whole text must be the text of the address. -/
theorem parseIpAddr_v4_iff {addr : BitVec 32} {text : List Char} :
    parseIpAddr text = some (.v4 addr) ↔ text = ipv4Text addr := by
  have hread : readIpAddr text = some (.v4 addr, []) ↔ readIpv4Addr text = some (addr, []) := by
    unfold readIpAddr
    cases readIpv4Addr text with
    | none => simp
    | some r => simp [Prod.ext_iff]
  rw [parseIpAddr, parseWith_eq_some_iff, hread, readIpv4Addr_eq_some_iff, List.append_nil]
  exact and_iff_left noDigit_nil

end ShredstreamProxy
