import Mathlib.Data.List.Range
import Mathlib.Logic.Function.Basic

/-!
# Descriptor tables

`fdalloc` of `sysfile.c`, on the `ofile` of a process: the lowest free descriptor is
taken. What a descriptor stands for is left open.
-/

set_option autoImplicit false

namespace ListlibSyscalls.DescriptorTable

abbrev NOFILE : ℕ := 16

variable {φ : Type*} {ofile : ℕ → Option φ} {nofile fd : ℕ}

def fdalloc (nofile : ℕ) (ofile : ℕ → Option φ) : Option ℕ :=
  (List.range nofile).find? fun fd => (ofile fd).isNone

theorem fdalloc_eq_some : fdalloc nofile ofile = some fd ↔
    fd < nofile ∧ ofile fd = none ∧ ∀ i < fd, (ofile i).isSome = true := by
  rw [fdalloc,List.find?_range_eq_some,List.mem_range,Option.isNone_iff_eq_none]
  constructor
  · rintro ⟨hfree,hlt,hbelow⟩
    exact ⟨hlt,hfree,fun i hi => by simpa [← Option.isSome_iff_ne_none] using hbelow i hi⟩
  · rintro ⟨hlt,hfree,hbelow⟩
    exact ⟨hfree,hlt,fun i hi => by simpa [← Option.isSome_iff_ne_none] using hbelow i hi⟩

theorem fdalloc_some (h : fdalloc nofile ofile = some fd) :
    fd < nofile ∧ ofile fd = none ∧ ∀ i < fd, (ofile i).isSome = true :=
  fdalloc_eq_some.mp h

theorem fdalloc_none (h : fdalloc nofile ofile = none) {fd : ℕ} (hfd : fd < nofile) :
    (ofile fd).isSome = true := by
  rw [fdalloc,List.find?_range_eq_none] at h
  simpa [← Option.isSome_iff_ne_none] using h fd hfd

theorem fdalloc_eq (hfull : ∀ i < fd, (ofile i).isSome = true) (hfree : ofile fd = none) :
    fdalloc nofile ofile = if fd < nofile then some fd else none := by
  split_ifs with h
  · exact fdalloc_eq_some.mpr ⟨h,hfree,hfull⟩
  · rw [fdalloc,List.find?_range_eq_none]
    intro i hi
    simpa [← Option.isSome_iff_ne_none] using hfull i (by omega)

end ListlibSyscalls.DescriptorTable
