import Redoubt.Kernel.Syscall

/-!
# Capabilities never gain authority

The order on capabilities under which a derivation and a spawn grant stay below
the capability they start from.
-/

namespace Redoubt.Kernel

open Redoubt.Foundation

namespace Cap

/-- The same kernel object with fewer rights and, on a disk, a smaller range. -/
def BoundedBy : Cap → Cap → Prop
  | .endpoint object rights, .endpoint holding held =>
      object = holding ∧ rights &&& held = rights
  | .memory basePaddr pages rights, .memory heldBase heldPages held =>
      basePaddr = heldBase ∧ pages = heldPages ∧ rights &&& held = rights
  | .block disk lbaStart lbas rights, .block heldDisk heldStart heldLbas held =>
      disk = heldDisk ∧ heldStart ≤ lbaStart ∧ lbaStart + lbas ≤ heldStart + heldLbas ∧
        rights &&& held = rights
  | _, _ => False

instance : DecidableRel BoundedBy := fun cap held => by
  unfold BoundedBy
  split <;> infer_instance

theorem land_subset_trans {a b c : Nat} (hab : a &&& b = a) (hbc : b &&& c = b) : a &&& c = a := by
  rw [← hab, Nat.land_assoc, hbc]

theorem BoundedBy.refl (cap : Cap) : cap.BoundedBy cap := by
  cases cap <;> simp [BoundedBy]

theorem BoundedBy.trans {a b c : Cap} (hab : a.BoundedBy b) (hbc : b.BoundedBy c) :
    a.BoundedBy c := by
  cases a <;> cases b <;> simp only [BoundedBy] at hab <;> cases c <;>
    simp only [BoundedBy] at hbc ⊢
  · exact ⟨hab.1.trans hbc.1, land_subset_trans hab.2 hbc.2⟩
  · exact ⟨hab.1.trans hbc.1, hab.2.1.trans hbc.2.1, land_subset_trans hab.2.2 hbc.2.2⟩
  · exact ⟨hab.1.trans hbc.1, hbc.2.1.trans hab.2.1, hab.2.2.1.trans hbc.2.2.1,
      land_subset_trans hab.2.2.2 hbc.2.2.2⟩

/-- Intersecting the rights of a capability stays below it. -/
theorem withRights_bounded (cap : Cap) (mask : Nat) :
    (cap.withRights (cap.rights &&& mask)).BoundedBy cap := by
  have hsubset : ∀ rights, rights &&& mask &&& rights = rights &&& mask := fun rights => by
    rw [Nat.land_comm, ← Nat.land_assoc, Nat.and_self]
  cases cap <;> simp [withRights, rights, BoundedBy, hsubset]

/-- An endpoint capability is bounded by capabilities for that endpoint only. -/
theorem BoundedBy.endpoint {index rights : Nat} {held : Cap}
    (h : (Cap.endpoint index rights).BoundedBy held) : ∃ more, held = .endpoint index more := by
  cases held <;> simp only [BoundedBy] at h
  exact ⟨_, by rw [h.1]⟩

end Cap

theorem saturatingAdd_le (a b : Nat) : saturatingAdd a b ≤ a + b := by
  unfold saturatingAdd
  omega

/-- What `sysCapDerive` installs is bounded by the capability it names. -/
theorem Machine.deriveFrom_bounded {src derived : Cap} {a : Args}
    (h : deriveFrom src a = .ok derived) :
    src.rights &&& rGrant ≠ 0 ∧ derived.BoundedBy src := by
  unfold deriveFrom at h
  split_ifs at h with hgrant hmask hrange
  refine ⟨hgrant, ?_⟩
  cases src with
  | endpoint object rights =>
      cases h
      exact Cap.withRights_bounded (.endpoint object rights) a.a1
  | memory basePaddr pages rights =>
      cases h
      exact Cap.withRights_bounded (.memory basePaddr pages rights) a.a1
  | block disk lbaStart lbas rights =>
      dsimp only at h
      split at h
      · cases h
      · rename_i reqHi hsum
        split_ifs at h with hempty
        cases h
        have hrights := Cap.withRights_bounded (.block disk lbaStart lbas rights) a.a1
        have hsat := saturatingAdd_le lbaStart lbas
        refine ⟨rfl, ?_, ?_, hrights.2.2.2⟩
        · omega
        · omega

namespace CapTable

variable {caps : CapTable} {slot other : Nat} {cap : Cap}

/-- A capability of a fresh table was granted. -/
theorem cap?_install {granted : List Cap} (h : (install granted).cap? slot = some cap) :
    cap ∈ granted := by
  have hmem : some cap ∈ install granted := by
    simp only [cap?, Option.join_eq_some_iff] at h
    exact List.mem_of_getElem? h
  simp only [install, List.mem_append, List.mem_map, Option.some.injEq, exists_eq_right,
    List.mem_replicate, reduceCtorEq, and_false, or_false] at hmem
  exact List.mem_of_mem_take hmem

theorem freeCapSlot_spec (h : caps.freeCapSlot = some slot) :
    slot < caps.length ∧ caps[slot]? = some none := by
  obtain ⟨hlt, hnone, -⟩ := List.findIdx?_eq_some_iff_getElem.1 h
  exact ⟨hlt, by simpa [List.getElem?_eq_getElem hlt] using hnone⟩

theorem cap?_set (hlt : slot < caps.length) :
    cap? (caps.set slot (some cap)) other =
      if other = slot then some cap else cap? caps other := by
  unfold cap?
  rw [List.getElem?_set]
  by_cases h : slot = other
  · simp [h, h ▸ hlt]
  · simp [h, Ne.symm h]

end CapTable

end Redoubt.Kernel
