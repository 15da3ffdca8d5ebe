import MassGridMiner.Lib.Atof
import MassGridMiner.Lib.FixedWidth
import MassGridMiner.Lib.Hex
import MassGridMiner.Stratum.Uri

/-!
# Patterns for devices

A device is named by its driver, by an index of it, or by its serial number or path, and its
processors by letters.  A pattern of indexes alone is looked up in the table of the devices.

## Main definitions

* `CgpuInfo` — a processor, as the patterns see it.
* `cgpuMatch` — `cgpu_match`.
-/

namespace MassGridMiner

open CStr

/-- The names of a `struct device_drv`. -/
structure DeviceDrv where
  dname : CStr
  name : CStr
  deriving DecidableEq

/-- The part of `struct cgpu_info` that stays as it is: a processor.  `ident` is its address and
`device` that of the first processor of its device, which has in `procs` the addresses and
numbers of all of them, along `next_proc`. -/
structure CgpuInfo where
  ident : ℕ
  drv : DeviceDrv
  device : ℕ
  deviceId : ℤ
  procId : ℤ
  devicePath : Option CStr
  devSerial : Option CStr
  procs : List (ℕ × ℤ)
  threads : ℕ
  extraWorkQueue : ℕ
  deriving DecidableEq

/-! ## Numbers -/

/-- `strtol` with base 0 on a text that starts with a digit, as an `int`, and what is left. -/
def strtolInt (s : List UInt8) : ℤ × List UInt8 :=
  let hex := digits 16 (s.drop 2)
  let (val, rest) :=
    if beginsNoCase (literal "0x") s && !hex.isEmpty then
      (ofDigits 16 hex, s.drop (2 + hex.length))
    else
      let base := if firstChar s = 0x30 then 8 else 10
      (ofDigits base (digits base s), s.drop (digits base s).length)
  ((Int32.ofNat (min val (2 ^ 63 - 1))).toInt, rest)

/-- The loop of `proc_letter_to_number`. -/
def procLetterLoop (n : ℤ) : List UInt8 → ℤ × List UInt8
  | [] => (n, [])
  | s :: rest =>
    let c : ℤ := (tolower s).toNat - 0x61
    if intMax / 26 < n then (n, s :: rest)
    else if c < 0 ∨ 25 < c then (n, s :: rest)
    else if intMax - c < n then (n, s :: rest)
    else procLetterLoop (n * 26 + c) rest

/-- `proc_letter_to_number`, with what is left. -/
def procLetterToNumber (s : List UInt8) : ℤ × List UInt8 := procLetterLoop 0 s

/-! ## The parts of a pattern -/

/-- Where the name of a driver, or a `d`, ends. -/
def nameEnd (drv : DeviceDrv) (p : List UInt8) : Option ℕ :=
  if beginsNoCase drv.dname.bytes p then some drv.dname.length
  else if beginsNoCase drv.name.bytes p then some drv.name.length
  else if firstChar p = 0x64 ∧ (isDigit (firstChar (p.drop 1)) ∨ firstChar (p.drop 1) = 0x2d) then
    some 1
  else if isDigit (firstChar p) ∨ firstChar p = 0x40 ∨ firstChar p = 0x2d then some 0
  else none

/-- The first and the last index, and what is left. -/
def indexRange (p : List UInt8) : ℤ × ℤ × List UInt8 :=
  let (n, p2) := if isDigit (firstChar p) then strtolInt p else (0, p)
  if firstChar p2 = 0x2d then
    let p2 := p2.drop 1
    if isDigit (firstChar p2) then
      let (n2, p2) := strtolInt p2
      (n, n2, p2)
    else (n, intMax, p2)
  else (n, n, p2)

/-- The first and the last processor, where a text names some; or none where its syntax is
invalid. -/
def procRange (p2 : List UInt8) : Option (Option (ℤ × ℤ)) :=
  if p2.isEmpty then some none
  else
    let (procFirst, p2) := procLetterToNumber p2
    let (procLast, p2) :=
      if firstChar p2 = 0x2d then
        if (p2.drop 1).isEmpty then (intMax, []) else procLetterToNumber (p2.drop 1)
      else (procFirst, p2)
    if p2.isEmpty then some (some (procFirst, procLast)) else none

/-- A number lies between those of a range, if one is given. -/
def inProcRange (procs : Option (ℤ × ℤ)) (procId : ℤ) : Bool :=
  match procs with
  | none => true
  | some (procFirst, procLast) => decide (procFirst ≤ procId ∧ procId ≤ procLast)

/-! ## Devices -/

/-- `devpath_to_devid`, where `stat` gives the `st_rdev` of a path. -/
def devpathToDevid (stat : List UInt8 → Option (List UInt8)) (devpath : List UInt8) :
    Option (List UInt8) :=
  if firstChar devpath ≠ 0x2f then none
  else (stat devpath).map fun rdev => literal "dev_t:" ++ bin2hex rdev

/-- `devpaths_match`. -/
def devpathsMatch (stat : List UInt8 → Option (List UInt8)) (ap bp : List UInt8) : Bool :=
  match devpathToDevid stat ap, devpathToDevid stat bp with
  | some a, some b => a == b
  | _, _ => false

/-- The loop over the table for indexes of processors. -/
def matchIndex (devices : List CgpuInfo) (totalDevices : ℕ) (n n2 : ℤ) (cgpu : CgpuInfo) : Bool :=
  (List.range totalDevices).any fun i =>
    decide (n ≤ i ∧ (i : ℤ) ≤ n2) &&
      (devices[i]?.map CgpuInfo.ident == some cgpu.ident)

/-- The loop over the table for indexes of devices, of which `c` is the last one seen. -/
def matchDevice (n n2 : ℤ) (procs : Option (ℤ × ℤ)) (cgpu : CgpuInfo) :
    ℤ → List CgpuInfo → Bool
  | _, [] => false
  | c, device :: rest =>
    if device.device ≠ device.ident then matchDevice n n2 procs cgpu c rest
    else
      let c := c + 1
      if c < n then matchDevice n n2 procs cgpu c rest
      else if n2 < c then false
      else if device.procs.any fun proc => inProcRange procs proc.2 && proc.1 == cgpu.ident then true
      else matchDevice n n2 procs cgpu c rest

/-- The driver of a processor has the name at the start of a pattern. -/
def matchesName (drv : DeviceDrv) (pattern : List UInt8) (L : ℕ) : Bool :=
  (L == 3 && equalNoCase (pattern.take 3) (drv.name.bytes.take 3)) || L == 0 ||
    (L == drv.dname.length && beginsNoCase drv.dname.bytes pattern)

/-- The end of `cgpu_match`, from the letters `p2` on.  `p` is empty where no index is given. -/
def matchProcs (devices : List CgpuInfo) (totalDevices : ℕ) (pattern : List UInt8) (L : ℕ)
    (p : List UInt8) (n n2 : ℤ) (p2 : List UInt8) (cgpu : CgpuInfo) : Bool :=
  match procRange p2 with
  | none => false
  | some procs =>
    if 1 < L ∨ tolower (firstChar pattern) ≠ 0x64 ∨ p.isEmpty then
      matchesName cgpu.drv pattern L &&
        (p.isEmpty || decide (n ≤ cgpu.deviceId ∧ cgpu.deviceId ≤ n2)) &&
        inProcRange procs cgpu.procId
    else matchDevice n n2 procs cgpu (-1) (devices.take totalDevices)

/-- `cgpu_match`. -/
def cgpuMatch (stat : List UInt8 → Option (List UInt8)) (devices : List CgpuInfo)
    (totalDevices : ℕ) (pattern : List UInt8) (cgpu : CgpuInfo) : Bool :=
  if equalNoCase pattern (literal "all") then true
  else
    match nameEnd cgpu.drv pattern with
    | none => false
    | some L =>
      let p := (pattern.drop L).dropWhile isSpace
      if firstChar p = 0x40 then
        -- a serial number or a path, up to another @
        let ser := p.drop 1
        let text := ser.takeWhile (· != 0x40)
        let p2 := ser.drop (text.length + 1)
        let devpath := (cgpu.devicePath.getD .empty).bytes
        let devser := (cgpu.devSerial.getD .empty).bytes
        if devpath == text || devser == text || devpathsMatch stat devpath ser then
          matchProcs devices totalDevices pattern L [] 0 0 p2 cgpu
        else false
      else
        let (n, n2, p2) := indexRange p
        if p.length = pattern.length then
          -- an index of a processor
          if p.isEmpty then true
          else if !p2.isEmpty then false
          else matchIndex devices totalDevices n n2 cgpu
        else matchProcs devices totalDevices pattern L p n n2 p2 cgpu

end MassGridMiner
