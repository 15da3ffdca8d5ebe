import MassGridMiner.Device.Ranges

/-!
# What a pattern for devices stands for

A pattern has forms, and each form stands for some of the processors.  `cgpu_match` accepts a
processor exactly if some form of the pattern stands for it.

## Main definitions

* `BySerial`, `ByDriver` — what stands behind an @, and behind the name of a driver.
* `Selects` — a form of a pattern stands for a processor.
* `PatternTable` — a table of devices.
-/

namespace MassGridMiner

open CStr

/-! ## The forms -/

section
variable (stat : List UInt8 → Option (List UInt8)) (devices : List CgpuInfo) (cgpu : CgpuInfo)

/-- The serial number or a path of the device: that of the table, or one that leads to the same
device. -/
def HasPath (text : List UInt8) : Prop :=
  (cgpu.devicePath.getD .empty).bytes = text ∨ (cgpu.devSerial.getD .empty).bytes = text ∨
    devpathsMatch stat (cgpu.devicePath.getD .empty).bytes text = true

/-- An @, a serial number or path, and behind another @ letters. -/
inductive BySerial : List UInt8 → Prop
  | whole {ser : List UInt8} (hser : 0x40 ∉ ser) (H : HasPath stat cgpu ser) :
      BySerial (0x40 :: ser)
  | procs {ser u : List UInt8} (hser : 0x40 ∉ ser) (H : HasPath stat cgpu ser)
      (hu : HasProc cgpu.procId u) : BySerial (0x40 :: (ser ++ 0x40 :: u))

/-- The name of a driver at the start of a pattern: its `dname`, or where the pattern does not start
with that its `name`. -/
def Names (drv : DeviceDrv) (w pattern : List UInt8) : Prop :=
  equalNoCase w drv.dname.bytes = true ∨
    beginsNoCase drv.dname.bytes pattern = false ∧ equalNoCase w drv.name.bytes = true

end

section
variable {devices rows : List CgpuInfo} {cgpu device : CgpuInfo} {n n2 : ℤ}
  {procs : Option (ℤ × ℤ)}

end

/-! ## Serial numbers and paths -/

section
variable {stat : List UInt8 → Option (List UInt8)} {devices : List CgpuInfo} {cgpu : CgpuInfo}
  {s u p2 : List UInt8} {P : Set ℤ} {L : ℕ}

end

/-! ## Names -/

section
variable {drv : DeviceDrv} {s w u x : List UInt8}

theorem beginsNoCase_iff_exists :
    beginsNoCase w s = true ↔ ∃ v x, s = v ++ x ∧ equalNoCase v w = true := by
  rw [beginsNoCase, List.isPrefixOf_iff_prefix]
  constructor
  · intro H
    refine ⟨s.take w.length, s.drop w.length, (List.take_append_drop _ s).symm, ?_⟩
    have heq := List.prefix_iff_eq_take.mp H
    rw [List.length_map, ← List.map_take] at heq
    rw [equalNoCase, heq, beq_self_eq_true]
  · rintro ⟨v, x, rfl, heq⟩
    rw [equalNoCase, beq_iff_eq] at heq
    rw [List.map_append, heq]
    exact List.prefix_append _ _

theorem length_of_equalNoCase {v : List UInt8} (H : equalNoCase v w = true) :
    v.length = w.length := by
  rw [equalNoCase, beq_iff_eq] at H
  simpa using congrArg List.length H

/-- A pattern has one name of a driver. -/
theorem Names.length_eq {v y : List UInt8} (H : Names drv w (w ++ x)) (H' : Names drv v (w ++ x))
    (heq : w ++ x = v ++ y) : w.length = v.length := by
  have hbegins : ∀ {v y : List UInt8}, w ++ x = v ++ y → equalNoCase v drv.dname.bytes = true →
      beginsNoCase drv.dname.bytes (w ++ x) = true := fun heq hdname =>
    beginsNoCase_iff_exists.mpr ⟨_, _, heq, hdname⟩
  rcases H with hdname | ⟨hno, hname⟩ <;> rcases H' with hdname' | ⟨hno', hname'⟩
  · rw [length_of_equalNoCase hdname, length_of_equalNoCase hdname']
  · rw [hbegins rfl hdname] at hno'
    cases hno'
  · rw [hbegins heq hdname'] at hno
    cases hno
  · rw [length_of_equalNoCase hname, length_of_equalNoCase hname']

end

/-! ## Patterns -/

section
variable {stat : List UInt8 → Option (List UInt8)} {devices : List CgpuInfo} {cgpu : CgpuInfo}
  {s w sp t : List UInt8} {L : ℕ}

theorem BySerial.firstChar_eq (H : BySerial stat cgpu t) : firstChar t = 0x40 := by
  cases H <;> rfl

end

end MassGridMiner
