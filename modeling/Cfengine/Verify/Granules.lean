import Cfengine.Granules

/-!
# The times of measurement slots

`MeasurementSlotTime` goes back from now to the slot. Where the slot is of the week before, the
distance is one short, so the time is in the slot that follows (`mapsBack_iff`).
-/

namespace Cfengine

variable {now t : Int} {slot : Nat}

theorem getTimeSlot_eq (ht : cfMondayMorning ≤ t) : getTimeSlot t = (t / 300 - 1152) % 2016 := by
  change 345600 ≤ t at ht
  change ((t - 345600).tmod 604800).tdiv 300 = _
  rw [Int.tmod_eq_emod_of_nonneg (by omega), Int.tdiv_eq_ediv_of_nonneg (by omega)]
  omega

theorem getTimeSlot_nonneg (ht : cfMondayMorning ≤ t) :
    0 ≤ getTimeSlot t ∧ getTimeSlot t < 2016 := by
  rw [getTimeSlot_eq ht]
  omega

/-- How many slots `MeasurementSlotTime` goes back. -/
def slotDistance (slot start : Int) : Int :=
  if slot ≤ start then start - slot else start + (2016 - slot - 1)

theorem measurementSlotTime_eq (hnow : cfMondayMorning ≤ now) (hslot : slot < 2016) :
    measurementSlotTime slot 2016 now =
      some (300 * (now / 300 - slotDistance slot (getTimeSlot now))) := by
  obtain ⟨hnonneg, hlt⟩ := getTimeSlot_nonneg hnow
  change 345600 ≤ now at hnow
  have hstart : (toSizeT (getTimeSlot now) : Int) = getTimeSlot now := by
    rw [toSizeT, Int.emod_eq_of_lt hnonneg (by omega), Int.toNat_of_nonneg hnonneg]
  have hfirst : measurementSlotStart now = 300 * (now / 300) := by
    change now - now.tmod 300 = _
    rw [Int.tmod_eq_emod_of_nonneg (by omega)]
    omega
  have hinterval : cfMeasureInterval = 300 := rfl
  rw [measurementSlotTime, if_neg (by omega), hfirst, hinterval, slotDistance]
  dsimp only
  by_cases hle : slot ≤ toSizeT (getTimeSlot now)
  · rw [if_pos hle, if_pos (by omega), Int.ofNat_sub hle, hstart]
    exact congrArg some (by ring)
  · have hwrap : (toSizeT (toSizeT (getTimeSlot now) + ((2016 : Nat) - slot - 1 : Int)) : Int) =
        getTimeSlot now + (2016 - slot - 1) := by
      rw [toSizeT, hstart, Int.emod_eq_of_lt (by omega) (by omega), Int.toNat_of_nonneg (by omega)]
      rfl
    rw [if_neg hle, if_neg (by omega), hwrap]
    exact congrArg some (by ring)

/-- The slot is mapped to its last time up to now. -/
def MapsBack (now : Int) (slot : Nat) : Prop :=
  ∃ t, measurementSlotTime slot 2016 now = some t ∧ 300 ∣ t ∧ getTimeSlot t = slot ∧
    now - secondsPerWeek < t ∧ t ≤ now

/-- A slot is mapped to its time exactly if it is not behind the slot of now. -/
theorem mapsBack_iff (hnow : 2 * secondsPerWeek ≤ now) (hslot : slot < 2016) :
    MapsBack now slot ↔ (slot : Int) ≤ getTimeSlot now := by
  have hmonday : cfMondayMorning ≤ now := le_trans (by decide) hnow
  change 2 * 604800 ≤ now at hnow
  have hstart := getTimeSlot_eq hmonday
  have hweek : secondsPerWeek = 604800 := rfl
  rw [MapsBack, measurementSlotTime_eq hmonday hslot, hweek]
  constructor
  · rintro ⟨t, ht, -, hmap, -, -⟩
    by_contra hlt
    rw [slotDistance, if_neg hlt] at ht
    have ht := Option.some.inj ht
    have hlate : cfMondayMorning ≤ t := by
      change 345600 ≤ t
      omega
    rw [getTimeSlot_eq hlate] at hmap
    omega
  · intro hle
    refine ⟨_, rfl, ⟨_, rfl⟩, ?_⟩
    rw [slotDistance, if_pos hle]
    have hlate : cfMondayMorning ≤ 300 * (now / 300 - (getTimeSlot now - slot)) := by
      change 345600 ≤ _
      omega
    rw [getTimeSlot_eq hlate]
    omega

/-- Friday 00:00, on Sunday 23:55. -/
theorem mapsBack_friday : MapsBack 1326066900 1152 :=
  (mapsBack_iff (by decide) (by decide)).mpr (by decide)

/-- The last slot of the week, on Monday 00:00. -/
theorem mapsBack_monday : ¬ MapsBack 1325462400 2015 := by
  rintro ⟨t, ht, -, hmap, -, -⟩
  rw [measurementSlotTime_eq (by decide) (by decide)] at ht
  cases ht
  exact absurd hmap (by decide)

end Cfengine
