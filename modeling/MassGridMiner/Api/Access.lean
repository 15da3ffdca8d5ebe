import MassGridMiner.Lib.Bits
import MassGridMiner.Api.Groups
import Mathlib.Tactic.Ring

/-!
# Who may connect to the API

The option lists addresses and networks, each with the group that its clients are put in.  A
client is compared with them in order, under a netmask that is put together bit by bit.

## Main definitions

* `netmask` — the netmask that the loop accumulates.
* `setupIpaccess`, `checkConnect` — the list, and the search for a client in it.
* `AllowEntry` — an entry of the option.
-/

namespace MassGridMiner

open CStr

/-- `struct IP4ACCESS`. -/
structure Ip4Access where
  ip : BitVec 32
  mask : BitVec 32
  group : UInt8
  deriving DecidableEq

section
variable (groups : ApiGroups) (overshift : BitVec 32)

/-- The loop over the bits of a netmask, from a value of `mask` before its test on.  The last
turn has `mask` at -1 and shifts by amounts that C leaves undefined; what comes of it is
`overshift`. -/
def maskTurns : ℕ → BitVec 32 → BitVec 32
  | 0, bits => bits ||| overshift
  | mask + 1, bits => maskTurns mask (bits ||| 1#32 <<< (mask % 8) <<< (24 - 8 * (mask >>> 3)))

/-- The netmask of a prefix. -/
def netmask (mask : ℕ) : BitVec 32 := maskTurns overshift mask 0

/-- The loop over the octets of an address, with so many turns left. -/
def readOctets : ℕ → Option (List UInt8) → BitVec 32 → Option (BitVec 32)
  | i + 1, some ptr, ip =>
    let (ptr, dot) := cut 0x2e ptr
    let octet := atoi ptr
    if octet < 0 ∨ 0xff < octet then none
    else readOctets i dot (ip ||| BitVec.ofInt 32 octet <<< (8 * i))
  | _, _, ip => some ip

/-- The group that an entry begins with, and what follows it. -/
def readGroup : List UInt8 → UInt8 × List UInt8
  | g :: 0x3a :: ptr =>
    if validGroup g then (if groups.defined g then toupper g else noPrivGroup, ptr)
    else (noPrivGroup, g :: 0x3a :: ptr)
  | ptr => (noPrivGroup, ptr)

/-- One entry of the list, unless it is skipped. -/
def readEntry (ptr : List UInt8) : Option Ip4Access :=
  let (group, ptr) := readGroup groups ptr
  if ptr = [0x30, 0x2f, 0x30] then some { ip := 0, mask := 0, group }
  else
    match cut 0x2f ptr with
    | (ptr, none) =>
      let mask := BitVec.allOnes 32
      (readOctets 4 (some ptr) 0).map fun ip => { ip := ip &&& mask, mask, group }
    | (ptr, some slash) =>
      let mask := atoi slash
      if mask < 1 ∨ 32 < mask then none
      else
        let mask := netmask overshift mask.toNat
        (readOctets 4 (some ptr) 0).map fun ip => { ip := ip &&& mask, mask, group }

/-- A text without the blanks it begins with. -/
def skipBlanks (ptr : List UInt8) : List UInt8 := ptr.dropWhile fun c => c == 0x20 || c == 0x9

/-- The loop over the entries.  Of blanks alone an entry is made only at the end. -/
def readEntries : List (List UInt8) → List Ip4Access
  | [] => []
  | [ptr] => if ptr = [] then [] else (readEntry groups overshift (skipBlanks ptr)).toList
  | ptr :: comma =>
    (if skipBlanks ptr = [] then [] else (readEntry groups overshift (skipBlanks ptr)).toList) ++
      readEntries comma

/-- `setup_ipaccess`. -/
def setupIpaccess (optApiAllow : List UInt8) : List Ip4Access :=
  readEntries groups overshift (optApiAllow.splitOn 0x2c)

end

/-- `inet_ntoa`. -/
def inetNtoa (client : BitVec 32) : List UInt8 :=
  [0x2e].intercalate ((List.range 4).map fun i => literal (toString (client.field (24 - 8 * i) 8)))

/-- `localaddr`. -/
def localaddr : List UInt8 := literal "127.0.0.1"

/-- `check_connect`, for a client by its address in the order of the host: whether it is let in,
and its group.  The list is there if `opt_api_allow` is. -/
def checkConnect (ipaccess : Option (List Ip4Access)) (optApiNetwork : Bool) (client : BitVec 32) :
    Bool × UInt8 :=
  match ipaccess with
  | some ipaccess =>
    match ipaccess.find? fun access => client &&& access.mask == access.ip with
    | some access => (true, access.group)
    | none => (false, noPrivGroup)
  | none => (optApiNetwork || inetNtoa client == localaddr, noPrivGroup)

/-! ## The option -/

/-- Digits that spell a number in a range. -/
structure Numeral (lo hi : ℕ) where
  text : List UInt8
  nonempty : text ≠ []
  digits : ∀ c ∈ text, 0x30 ≤ c ∧ c ≤ 0x39
  lo_le : lo ≤ ofDigits 10 text
  le_hi : ofDigits 10 text ≤ hi

/-- A text that can be seen to be one. -/
def Numeral.of {lo hi : ℕ} (text : List UInt8)
    (H : text ≠ [] ∧ (∀ c ∈ text, 0x30 ≤ c ∧ c ≤ 0x39) ∧ lo ≤ ofDigits 10 text ∧
      ofDigits 10 text ≤ hi := by decide +kernel) : Numeral lo hi where
  text := text
  nonempty := H.1
  digits := H.2.1
  lo_le := H.2.2.1
  le_hi := H.2.2.2

/-- The number. -/
def Numeral.val {lo hi : ℕ} (n : Numeral lo hi) : ℕ := ofDigits 10 n.text

/-- The addresses of an entry: all, or those of a network; without a prefix, of one host. -/
inductive AllowAddr
  | all
  | net (a b c d : Numeral 0 255) (slash : Option (Numeral 1 32))

/-- An entry of the option, with the letter of a group or without. -/
structure AllowEntry where
  letter : Option { g : UInt8 // validGroup g = true }
  addr : AllowAddr

/-- How an address is written. -/
def hostText (a b c d : Numeral 0 255) : List UInt8 :=
  a.text ++ 0x2e :: (b.text ++ 0x2e :: (c.text ++ 0x2e :: d.text))

/-- How the addresses of an entry are written. -/
def AllowAddr.text : AllowAddr → List UInt8
  | .all => [0x30, 0x2f, 0x30]
  | .net a b c d none => hostText a b c d
  | .net a b c d (some n) => hostText a b c d ++ 0x2f :: n.text

/-- How an entry is written. -/
def AllowEntry.text (e : AllowEntry) : List UInt8 :=
  match e.letter with
  | some g => g.val :: 0x3a :: e.addr.text
  | none => e.addr.text

/-- How the option is written. -/
def allowText (entries : List AllowEntry) : List UInt8 :=
  [0x2c].intercalate (entries.map AllowEntry.text)

/-- The group of an entry. -/
def AllowEntry.group (groups : ApiGroups) (e : AllowEntry) : UInt8 :=
  match e.letter with
  | some g => if groups.defined g then toupper g else noPrivGroup
  | none => noPrivGroup

/-- The address of an entry. -/
def AllowAddr.ip : AllowAddr → BitVec 32
  | .all => 0
  | .net a b c d _ => BitVec.ofNat 32 (((a.val * 2 ^ 8 + b.val) * 2 ^ 8 + c.val) * 2 ^ 8 + d.val)

/-- How many bits of the address of an entry count. -/
def AllowAddr.bits : AllowAddr → ℕ
  | .all => 0
  | .net _ _ _ _ slash => (slash.map Numeral.val).getD 32

/-- A client has the first bits of the address of an entry. -/
def AllowAddr.Covers (addr : AllowAddr) (client : BitVec 32) : Prop :=
  client >>> (32 - addr.bits) = addr.ip >>> (32 - addr.bits)

instance (addr : AllowAddr) (client : BitVec 32) : Decidable (addr.Covers client) :=
  inferInstanceAs (Decidable (_ = _))

/-- A client agrees with a prefix in the octets that it covers, and in as many of the low bits
of the next octet as it covers of the high ones. -/
def AgreesLow (overshift : BitVec 32) (n : ℕ) (client ip : BitVec 32) : Prop :=
  client &&& overshift = ip &&& overshift ∧
    (∀ i < n / 8, client.field (24 - 8 * i) 8 = ip.field (24 - 8 * i) 8) ∧
    client.field (24 - 8 * (n / 8)) (n % 8) = ip.field (24 - 8 * (n / 8)) (n % 8)

instance (overshift : BitVec 32) (n : ℕ) (client ip : BitVec 32) :
    Decidable (AgreesLow overshift n client ip) :=
  inferInstanceAs (Decidable (_ ∧ _ ∧ _))

/-- A client agrees with an entry in the bits that are compared. -/
def AllowAddr.Matches (overshift : BitVec 32) (client : BitVec 32) : AllowAddr → Prop
  | .all => True
  | .net a b c d none => client = (AllowAddr.net a b c d none).ip
  | .net a b c d (some n) => AgreesLow overshift n.val client (AllowAddr.net a b c d (some n)).ip

instance (overshift client : BitVec 32) : DecidablePred (AllowAddr.Matches overshift client)
  | .all => inferInstanceAs (Decidable True)
  | .net a b c d none => inferInstanceAs (Decidable (client = (AllowAddr.net a b c d none).ip))
  | .net a b c d (some n) =>
    inferInstanceAs
      (Decidable (AgreesLow overshift n.val client (AllowAddr.net a b c d (some n)).ip))

/-! ## The netmask -/

theorem getLsbD_maskTurns {overshift : BitVec 32} {n : ℕ} (hn : n ≤ 32) (bits : BitVec 32)
    {b : ℕ} (hb : b < 32) :
    (maskTurns overshift n bits).getLsbD b =
      (bits.getLsbD b || overshift.getLsbD b || decide (8 * (3 - b / 8) + b % 8 < n)) := by
  induction n generalizing bits with
  | zero => simp [maskTurns]
  | succ n ih =>
      have hturn : (1#32 <<< (n % 8) <<< (24 - 8 * (n >>> 3))).getLsbD b =
          decide (8 * (3 - b / 8) + b % 8 = n) := by
        rw [← BitVec.shiftLeft_add, ← BitVec.twoPow_eq, BitVec.getLsbD_twoPow,
          Nat.shiftRight_eq_div_pow]
        rw [← Bool.decide_and, decide_eq_decide]
        omega
      have hle : (8 * (3 - b / 8) + b % 8 < n + 1) ↔
          8 * (3 - b / 8) + b % 8 = n ∨ 8 * (3 - b / 8) + b % 8 < n := by omega
      rw [maskTurns, ih (by omega), BitVec.getLsbD_or, hturn, decide_eq_decide.mpr hle,
        Bool.decide_or]
      ac_rfl

/-- **What the netmask keeps**: of the octet that the prefix ends in, the low bits. -/
theorem and_netmask_iff {overshift : BitVec 32} {n : ℕ} (hn : n ≤ 32) {client ip : BitVec 32} :
    client &&& netmask overshift n = ip &&& netmask overshift n ↔
      AgreesLow overshift n client ip := by
  have hmask : ∀ b < 32, (netmask overshift n).getLsbD b = true ↔
      overshift.getLsbD b = true ∨ 8 * (3 - b / 8) + b % 8 < n := fun b hb => by
    rw [netmask, getLsbD_maskTurns hn 0 hb]
    simp
  simp only [BitVec.and_eq_and_iff, AgreesLow, BitVec.field_eq_field_iff]
  constructor
  · intro H
    refine ⟨fun b hb ho => H b hb ((hmask b hb).mpr (.inl ho)), fun i hi j hj => ?_, fun j hj => ?_⟩
    · exact H _ (by omega) ((hmask _ (by omega)).mpr (.inr (by omega)))
    · exact H _ (by omega) ((hmask _ (by omega)).mpr (.inr (by omega)))
  · rintro ⟨hover, hfull, hlow⟩ b hb hm
    rcases (hmask b hb).mp hm with ho | hlt
    · exact hover b hb ho
    · rcases Nat.lt_or_ge (3 - b / 8) (n / 8) with hi | hi
      · have := hfull (3 - b / 8) hi (b % 8) (Nat.mod_lt _ (by decide))
        rwa [show 24 - 8 * (3 - b / 8) + b % 8 = b by omega] at this
      · have := hlow (b % 8) (by omega)
        rwa [show 24 - 8 * (n / 8) + b % 8 = b by omega] at this

/-- Where a prefix ends with an octet, the first bits are what is compared. -/
theorem agreesLow_iff_of_dvd {overshift : BitVec 32} (hover : overshift &&& 0x00ffffff#32 = 0)
    {n : ℕ} (hn : n ≤ 32) (hpos : 0 < n) (hdvd : 8 ∣ n) {client ip : BitVec 32} :
    AgreesLow overshift n client ip ↔ client >>> (32 - n) = ip >>> (32 - n) := by
  have hhigh : ∀ b < 32, overshift.getLsbD b = true → 24 ≤ b := by
    intro b hb ho
    by_contra hlow
    have hbit := congrArg (BitVec.getLsbD · b) hover
    have hmask : ∀ b < 24, (0x00ffffff#32).getLsbD b = true := by decide
    simp [ho, hmask b (by omega)] at hbit
  simp only [AgreesLow, BitVec.and_eq_and_iff, BitVec.field_eq_field_iff,
    BitVec.ushiftRight_eq_iff]
  constructor
  · rintro ⟨-, hfull, -⟩ b hb hs
    have := hfull (3 - b / 8) (by omega) (b % 8) (Nat.mod_lt _ (by decide))
    rwa [show 24 - 8 * (3 - b / 8) + b % 8 = b by omega] at this
  · intro H
    refine ⟨fun b hb ho => H b hb ?_, fun i hi j hj => H _ (by omega) (by omega), fun j hj => ?_⟩
    · have := hhigh b hb ho
      omega
    · omega

/-! ## Reading the option -/

namespace Numeral
variable {lo hi : ℕ} (n : Numeral lo hi)

/-- What is no digit is not in the text. -/
theorem notMem_text {c : UInt8} (H : ¬ (0x30 ≤ c ∧ c ≤ 0x39)) : c ∉ n.text :=
  fun hc => H (n.digits c hc)

theorem atoi_text (hhi : hi < 2 ^ 31) : atoi n.text = n.val :=
  atoi_of_digits n.digits (n.le_hi.trans_lt hhi)

end Numeral

/-- An octet is put behind those before it. -/
theorem or_octet {hi i octet : ℕ} (H : octet < 2 ^ 8) :
    BitVec.ofNat 32 (hi * 2 ^ (8 * (i + 1))) ||| BitVec.ofInt 32 octet <<< (8 * i) =
      BitVec.ofNat 32 ((hi * 2 ^ 8 + octet) * 2 ^ (8 * i)) := by
  have hlt : octet * 2 ^ (8 * i) < 2 ^ (8 * (i + 1)) := by
    rw [Nat.mul_add, pow_add, mul_comm (2 ^ (8 * i))]
    exact Nat.mul_lt_mul_of_pos_right H (Nat.two_pow_pos _)
  have hsum : hi * 2 ^ (8 * (i + 1)) ||| octet * 2 ^ (8 * i) =
      (hi * 2 ^ 8 + octet) * 2 ^ (8 * i) := by
    rw [← Nat.shiftLeft_eq hi, ← Nat.shiftLeft_add_eq_or_of_lt hlt, Nat.shiftLeft_eq]
    ring
  rw [← hsum, BitVec.ofNat_or]
  congr 1
  rw [BitVec.ofInt_natCast]
  refine BitVec.eq_of_toNat_eq ?_
  simp [Nat.shiftLeft_eq]

theorem readOctets_succ (i : ℕ) (n : Numeral 0 255) (rest : List UInt8) (ip : BitVec 32) :
    readOctets (i + 1) (some (n.text ++ 0x2e :: rest)) ip =
      readOctets i (some rest) (ip ||| BitVec.ofInt 32 n.val <<< (8 * i)) := by
  have hcut := cut_append_cons (n.notMem_text (c := 0x2e) (by decide)) rest
  have hrange : ¬ ((n.val : ℤ) < 0 ∨ 0xff < (n.val : ℤ)) := by
    have := n.le_hi
    simp only [Numeral.val]
    omega
  rw [readOctets, hcut]
  simp only [n.atoi_text (by decide), if_neg hrange]

theorem readOctets_last (i : ℕ) (n : Numeral 0 255) (ip : BitVec 32) :
    readOctets (i + 1) (some n.text) ip = some (ip ||| BitVec.ofInt 32 n.val <<< (8 * i)) := by
  have hcut := cut_of_notMem (n.notMem_text (c := 0x2e) (by decide))
  have hrange : ¬ ((n.val : ℤ) < 0 ∨ 0xff < (n.val : ℤ)) := by
    have := n.le_hi
    simp only [Numeral.val]
    omega
  rw [readOctets, hcut]
  simp only [n.atoi_text (by decide), if_neg hrange]
  cases i <;> rfl

/-- Four octets are an address. -/
theorem readOctets_four (a b c d : Numeral 0 255) (slash : Option (Numeral 1 32)) :
    readOctets 4 (some (hostText a b c d)) 0 = some (AllowAddr.net a b c d slash).ip := by
  have hlt : ∀ n : Numeral 0 255, n.val < 2 ^ 8 := fun n => Nat.lt_succ_of_le n.le_hi
  have hzero : (0 : BitVec 32) = BitVec.ofNat 32 (0 * 2 ^ (8 * (3 + 1))) := by simp
  rw [hostText, readOctets_succ, readOctets_succ, readOctets_succ, readOctets_last, hzero,
    or_octet (hlt a), or_octet (i := 2) (hlt b), or_octet (i := 1) (hlt c),
    or_octet (i := 0) (hlt d)]
  simp [AllowAddr.ip]

/-! ## The entries -/

theorem notMem_hostText {a b c d : Numeral 0 255} {x : UInt8} (hx : ¬ (0x30 ≤ x ∧ x ≤ 0x39))
    (hdot : x ≠ 0x2e) : x ∉ hostText a b c d := by
  simp [hostText, Numeral.notMem_text _ hx, hdot]

theorem notMem_text {e : AllowEntry} {x : UInt8} (hx : ¬ (0x30 ≤ x ∧ x ≤ 0x39))
    (hdot : x ≠ 0x2e) (hslash : x ≠ 0x2f) (hcolon : x ≠ 0x3a) (hletter : validGroup x = false) :
    x ∉ e.text := by
  have haddr : x ∉ e.addr.text := by
    rcases e.addr with _ | ⟨a, b, c, d, _ | n⟩
    · have hzero : x ≠ 0x30 := fun h => hx (by rw [h]; decide)
      simp [AllowAddr.text, hslash, hzero]
    · exact notMem_hostText hx hdot
    · simp [AllowAddr.text, notMem_hostText hx hdot, hslash, n.notMem_text hx]
  rw [AllowEntry.text]
  split
  · rename_i g _
    have hg : x ≠ g.val := fun h => by simp [h, g.2] at hletter
    simp [hg, hcolon, haddr]
  · exact haddr

/-- The addresses of an entry begin with a digit. -/
theorem exists_digit_cons (addr : AllowAddr) :
    ∃ c s, addr.text = c :: s ∧ 0x30 ≤ c ∧ c ≤ 0x39 := by
  have hhost : ∀ (a b c d : Numeral 0 255) (rest : List UInt8),
      ∃ x s, hostText a b c d ++ rest = x :: s ∧ 0x30 ≤ x ∧ x ≤ 0x39 := by
    intro a b c d rest
    obtain ⟨x, s, hx⟩ := List.exists_cons_of_ne_nil a.nonempty
    refine ⟨x, _, by rw [hostText, hx]; rfl, a.digits x (hx ▸ List.mem_cons_self)⟩
  rcases addr with _ | ⟨a, b, c, d, _ | n⟩
  · exact ⟨0x30, [0x2f, 0x30], rfl, by decide⟩
  · simpa [AllowAddr.text] using hhost a b c d []
  · exact hhost a b c d (0x2f :: n.text)

theorem validGroup_digit {c : UInt8} (H : 0x30 ≤ c ∧ c ≤ 0x39) : validGroup c = false := by
  have hall : ∀ c : UInt8, 0x30 ≤ c ∧ c ≤ 0x39 → validGroup c = false :=
    CStr.forall_char (by decide +kernel)
  exact hall c H

theorem readGroup_text (groups : ApiGroups) (e : AllowEntry) :
    readGroup groups e.text = (e.group groups, e.addr.text) := by
  rcases e with ⟨_ | g, addr⟩
  · obtain ⟨c, s, hs, hc⟩ := exists_digit_cons addr
    simp only [AllowEntry.text, AllowEntry.group, hs, readGroup.eq_def]
    split
    · rename_i g ptr heq
      obtain ⟨rfl, rfl⟩ := List.cons.inj heq
      rw [validGroup_digit hc]
      rfl
    · rfl
  · simp [AllowEntry.text, AllowEntry.group, readGroup, g.2]

/-- What an entry comes to. -/
def AllowEntry.access (groups : ApiGroups) (overshift : BitVec 32) (e : AllowEntry) : Ip4Access :=
  let mask := match e.addr with
    | .all => 0
    | .net _ _ _ _ none => BitVec.allOnes 32
    | .net _ _ _ _ (some n) => netmask overshift n.val
  { ip := e.addr.ip &&& mask, mask, group := e.group groups }

theorem readEntry_text (groups : ApiGroups) (overshift : BitVec 32) (e : AllowEntry) :
    readEntry groups overshift e.text = some (e.access groups overshift) := by
  have hdot : ∀ (a b c d : Numeral 0 255) (rest : List UInt8),
      hostText a b c d ++ rest ≠ [0x30, 0x2f, 0x30] := by
    intro a b c d rest heq
    have hmem : (0x2e : UInt8) ∈ hostText a b c d ++ rest := by simp [hostText]
    rw [heq] at hmem
    revert hmem
    decide
  rw [readEntry, readGroup_text]
  rcases e with ⟨letter, _ | ⟨a, b, c, d, _ | n⟩⟩
  · simp [AllowAddr.text, AllowEntry.access, AllowAddr.ip]
  · have hne := hdot a b c d []
    have hcut := cut_of_notMem (notMem_hostText (x := 0x2f) (a := a) (b := b) (c := c) (d := d)
      (by decide) (by decide))
    rw [List.append_nil] at hne
    simp only [AllowAddr.text, if_neg hne, hcut, readOctets_four a b c d none, Option.map_some]
    rfl
  · have hne := hdot a b c d (0x2f :: n.text)
    have hcut := cut_append_cons (notMem_hostText (x := 0x2f) (a := a) (b := b) (c := c) (d := d)
      (by decide) (by decide)) n.text
    have hrange : ¬ ((n.val : ℤ) < 1 ∨ 32 < (n.val : ℤ)) := by
      have := n.lo_le
      have := n.le_hi
      simp only [Numeral.val]
      omega
    simp only [AllowAddr.text, if_neg hne, hcut, n.atoi_text (by decide), if_neg hrange,
      readOctets_four a b c d (some n), Option.map_some, Int.toNat_natCast]
    rfl

/-- An entry begins with a letter or a digit. -/
theorem exists_cons_text (e : AllowEntry) :
    ∃ c s, e.text = c :: s ∧ c ≠ 0x20 ∧ c ≠ 0x9 := by
  rcases e with ⟨_ | g, addr⟩
  · obtain ⟨c, s, hs, hlow, -⟩ := exists_digit_cons addr
    refine ⟨c, s, hs, ?_, ?_⟩
    · rintro rfl
      exact absurd hlow (by decide)
    · rintro rfl
      exact absurd hlow (by decide)
  · refine ⟨g, _, rfl, fun h => ?_, fun h => ?_⟩
    · exact absurd (h ▸ g.2) (by decide)
    · exact absurd (h ▸ g.2) (by decide)

theorem readEntries_map_text (groups : ApiGroups) (overshift : BitVec 32)
    (entries : List AllowEntry) :
    readEntries groups overshift (entries.map AllowEntry.text) =
      entries.map (AllowEntry.access groups overshift) := by
  have hone : ∀ e : AllowEntry, e.text ≠ [] ∧ skipBlanks e.text = e.text := by
    intro e
    obtain ⟨c, s, hs, hspace, htab⟩ := exists_cons_text e
    simp [skipBlanks, hs, hspace, htab]
  induction entries with
  | nil => rfl
  | cons e entries ih =>
      obtain ⟨hne, hskip⟩ := hone e
      cases entries with
      | nil => simp [readEntries, hne, hskip, readEntry_text]
      | cons e' entries =>
          simp only [List.map_cons] at ih ⊢
          rw [readEntries, ih, hskip, if_neg hne, readEntry_text]
          · rfl
          · exact fun h => by cases h

/-- **The list is that of the entries**, in order. -/
theorem setupIpaccess_allowText (groups : ApiGroups) (overshift : BitVec 32)
    (entries : List AllowEntry) :
    setupIpaccess groups overshift (allowText entries) =
      entries.map (AllowEntry.access groups overshift) := by
  rcases eq_or_ne entries [] with rfl | hne
  · rfl
  have hcomma : ∀ text ∈ entries.map AllowEntry.text, (0x2c : UInt8) ∉ text := by
    intro text htext
    obtain ⟨e, -, rfl⟩ := List.mem_map.mp htext
    exact notMem_text (by decide) (by decide) (by decide) (by decide) (by decide)
  rw [setupIpaccess, allowText, List.splitOn_intercalate _ hcomma (by simpa using hne),
    readEntries_map_text]

/-! ## Who is let in -/

section
variable (groups : ApiGroups) (overshift : BitVec 32) (entries : List AllowEntry)

/-- The group of the first entry that a client meets. -/
def firstGroup (meets : AllowAddr → Prop) [DecidablePred meets] : Option UInt8 :=
  (entries.find? fun e => meets e.addr).map (AllowEntry.group groups)

/-- A client is let in exactly when an entry covers its address, and is put in the group of the
first that does. -/
def AdmitsAsListed (optApiNetwork : Bool) (client : BitVec 32) : Prop :=
  let ipaccess := setupIpaccess groups overshift (allowText entries)
  let (addrok, group) := checkConnect (some ipaccess) optApiNetwork client
  (addrok = true ↔ ∃ e ∈ entries, e.addr.Covers client) ∧
    ∀ g, firstGroup groups entries (AllowAddr.Covers · client) = some g → group = g

variable {groups overshift entries} {client : BitVec 32}

theorem and_mask_eq_iff (e : AllowEntry) :
    client &&& (e.access groups overshift).mask = (e.access groups overshift).ip ↔
      e.addr.Matches overshift client := by
  rcases e with ⟨letter, _ | ⟨a, b, c, d, _ | n⟩⟩
  · simp [AllowEntry.access, AllowAddr.Matches]
  · simp only [AllowEntry.access, BitVec.and_allOnes]
    exact Iff.rfl
  · exact and_netmask_iff n.le_hi

/-- A client is put in the group of the first entry that it matches. -/
theorem checkConnect_setupIpaccess (optApiNetwork : Bool) :
    checkConnect (some (setupIpaccess groups overshift (allowText entries))) optApiNetwork client =
      match firstGroup groups entries (AllowAddr.Matches overshift client) with
      | some g => (true, g)
      | none => (false, noPrivGroup) := by
  have hcomp : ((fun access : Ip4Access => client &&& access.mask == access.ip) ∘
      AllowEntry.access groups overshift) = fun e => decide (e.addr.Matches overshift client) :=
    funext fun e => by
      rw [Function.comp_apply, Bool.eq_iff_iff, beq_iff_eq, decide_eq_true_iff]
      exact and_mask_eq_iff e
  simp only [checkConnect, setupIpaccess_allowText, List.find?_map, hcomp, firstGroup]
  cases entries.find? fun e => decide (e.addr.Matches overshift client) <;> rfl

/-- A network with a prefix of 12 bits. -/
def slashTwelve : AllowEntry where
  letter := none
  addr := .net (.of [0x31, 0x30]) (.of [0x31, 0x36]) (.of [0x30]) (.of [0x30])
    (some (.of [0x31, 0x32]))

/-- **`10.16.0.0/12` lets 10.17.0.0 not in**, whatever the last turn of the loop does: of the
second octet the low bits are compared, and those of 17 and 16 differ. -/
theorem not_admitsAsListed_slashTwelve :
    allowText [slashTwelve] = literal "10.16.0.0/12" ∧
      ∀ overshift, ¬ AdmitsAsListed (fun _ => none) overshift [slashTwelve] false 0x0a110000#32 := by
  refine ⟨by decide +kernel, fun overshift H => ?_⟩
  have hcovers : slashTwelve.addr.Covers 0x0a110000#32 := by decide +kernel
  have hlow : ¬ slashTwelve.addr.Matches overshift 0x0a110000#32 := fun h =>
    absurd h.2.2 (by decide +kernel)
  simp [AdmitsAsListed, checkConnect_setupIpaccess, firstGroup, hlow, hcovers] at H

/-- **The low bits decide.**  A client is treated as the entries say exactly when the first entry
whose octets it has, with the low bits of the one that the prefix ends in, and the first whose
top bits it has put it in the same group, or there is neither. -/
theorem admitsAsListed_iff (groups : ApiGroups) (overshift : BitVec 32) (entries : List AllowEntry)
    (optApiNetwork : Bool) (client : BitVec 32) :
    AdmitsAsListed groups overshift entries optApiNetwork client ↔
      firstGroup groups entries (AllowAddr.Matches overshift client) =
        firstGroup groups entries (AllowAddr.Covers · client) := by
  have hsome : (∃ e ∈ entries, e.addr.Covers client) ↔
      (firstGroup groups entries (AllowAddr.Covers · client)).isSome := by
    simp [firstGroup, List.find?_isSome]
  simp only [AdmitsAsListed, checkConnect_setupIpaccess, hsome]
  cases firstGroup groups entries (AllowAddr.Matches overshift client) <;>
    cases firstGroup groups entries (AllowAddr.Covers · client) <;> simp

/-- Where a prefix ends with an octet, what is compared is what the entry covers. -/
theorem matches_iff_covers (hover : overshift &&& 0x00ffffff#32 = 0) {addr : AllowAddr}
    (hdvd : 8 ∣ addr.bits) : addr.Matches overshift client ↔ addr.Covers client := by
  rcases addr with _ | ⟨a, b, c, d, _ | n⟩
  · refine iff_of_true trivial (BitVec.ushiftRight_eq_iff.mpr fun b hb hs => ?_)
    simp only [AllowAddr.bits] at hs
    omega
  · simp [AllowAddr.Matches, AllowAddr.Covers, AllowAddr.bits]
  · exact agreesLow_iff_of_dvd hover n.le_hi n.lo_le hdvd

/-- Every client is treated as the entries say where every prefix ends with an octet. -/
theorem admitsAsListed_of_dvd (hover : overshift &&& 0x00ffffff#32 = 0)
    (hdvd : ∀ e ∈ entries, 8 ∣ e.addr.bits) (optApiNetwork : Bool) (client : BitVec 32) :
    AdmitsAsListed groups overshift entries optApiNetwork client := by
  rw [admitsAsListed_iff, firstGroup, firstGroup]
  congr 1
  induction entries with
  | nil => rfl
  | cons e entries ih =>
      rw [List.find?_cons, List.find?_cons, ih fun e' he' => hdvd e' (List.mem_cons_of_mem e he'),
        decide_eq_decide.mpr (matches_iff_covers hover (hdvd e List.mem_cons_self))]

/-- **A prefix within an octet shuts out a client that it covers**: the one whose address has
the lowest bit of that octet the other way. -/
theorem exists_not_admitsAsListed (groups : ApiGroups) (overshift : BitVec 32)
    {e : AllowEntry} (hdvd : ¬ 8 ∣ e.addr.bits) (optApiNetwork : Bool) :
    ∃ client, e.addr.Covers client ∧
      ¬ AdmitsAsListed groups overshift [e] optApiNetwork client := by
  rcases e with ⟨letter, _ | ⟨a, b, c, d, _ | n⟩⟩
  · exact absurd (Dvd.intro 0 rfl) hdvd
  · exact absurd (Dvd.intro 4 rfl) hdvd
  have hn : n.val ≤ 32 := n.le_hi
  have hmod : 0 < n.val % 8 := Nat.pos_of_ne_zero fun h => hdvd (Nat.dvd_of_mod_eq_zero h)
  let s := 24 - 8 * (n.val / 8)
  let ip := (AllowAddr.net a b c d (some n)).ip
  have hcovers : (AllowAddr.net a b c d (some n)).Covers (ip ^^^ BitVec.twoPow 32 s) := by
    refine BitVec.ushiftRight_eq_iff.mpr fun j hj hlow => ?_
    have hne : ¬ s = j := fun hs => by
      have hlow : 32 - n.val ≤ j := hlow
      omega
    simp [BitVec.getLsbD_xor, BitVec.getLsbD_twoPow, hne, ip]
  have hdiffers : ¬ (AllowAddr.net a b c d (some n)).Matches overshift
      (ip ^^^ BitVec.twoPow 32 s) := by
    intro h
    have hbit := BitVec.field_eq_field_iff.mp h.2.2 0 hmod
    have hs : s < 32 := by omega
    simp [ip, s, hs] at hbit
  refine ⟨ip ^^^ BitVec.twoPow 32 s, hcovers, fun H => ?_⟩
  rw [admitsAsListed_iff, firstGroup, firstGroup, List.find?_singleton, List.find?_singleton,
    if_pos (decide_eq_true hcovers), if_neg (mt of_decide_eq_true hdiffers)] at H
  cases H

end

/-! ## The groups of clients -/

theorem toupper_toupper : ∀ c : UInt8, toupper (toupper c) = toupper c :=
  CStr.forall_char (by decide +kernel)

section
variable {groups : ApiGroups}

theorem defined_readGroup (H : groups.defined noPrivGroup = true) (ptr : List UInt8) :
    groups.defined (readGroup groups ptr).1 = true := by
  rw [readGroup.eq_def]
  split
  · split
    · split
      · rename_i hdefined
        simpa [ApiGroups.defined, ApiGroups.commands, isPrivGroup, toupper_toupper] using hdefined
      · exact H
    · exact H
  · exact H

theorem group_of_mem_readEntry {overshift : BitVec 32} {ptr : List UInt8} {access : Ip4Access}
    (H : access ∈ readEntry groups overshift ptr) : access.group = (readGroup groups ptr).1 := by
  simp only [readEntry, Option.mem_def] at H
  split at H
  · cases H
    rfl
  split at H
  · obtain ⟨ip, -, rfl⟩ := Option.map_eq_some_iff.mp H
    rfl
  · split at H
    · cases H
    · obtain ⟨ip, -, rfl⟩ := Option.map_eq_some_iff.mp H
      rfl

theorem exists_of_mem_readEntries {overshift : BitVec 32} {ptrs : List (List UInt8)}
    {access : Ip4Access}
    (H : access ∈ readEntries groups overshift ptrs) :
    ∃ ptr, access ∈ readEntry groups overshift ptr := by
  fun_induction readEntries groups overshift ptrs with
  | case1 => cases H
  | case2 => cases H
  | case3 ptr _ => exact ⟨skipBlanks ptr, by simpa using H⟩
  | case4 ptr comma hne ih =>
      rcases List.mem_append.mp H with hhead | htail
      · split at hhead
        · cases hhead
        · exact ⟨skipBlanks ptr, by simpa using hhead⟩
      · exact ih htail

/-- **The group of a client is set up**, whatever the option is. -/
theorem defined_checkConnect (overshift : BitVec 32) (H : groups.defined noPrivGroup = true)
    (optApiAllow : Option (List UInt8)) (optApiNetwork : Bool) (client : BitVec 32) :
    groups.defined (checkConnect (optApiAllow.map (setupIpaccess groups overshift)) optApiNetwork
      client).2 = true := by
  cases optApiAllow with
  | none => exact H
  | some text =>
      rw [Option.map_some, checkConnect]
      split
      · rename_i access hfind
        obtain ⟨ptr, hptr⟩ := exists_of_mem_readEntries (List.mem_of_find?_eq_some hfind)
        rw [group_of_mem_readEntry hptr]
        exact defined_readGroup H ptr
      · exact H

end

end MassGridMiner
