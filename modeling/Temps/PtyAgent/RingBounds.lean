import Temps.PtyAgent.Replay

namespace Temps.PtyAgent

open List Replay

variable {buf data : List UInt8} {start stop a b n max size : ℕ}

/-- `a - b`, or `none` where it would underflow. -/
def checkedSub (a b : ℕ) : Option ℕ :=
  if b ≤ a then some (a - b) else none

def checkedRem (a b : ℕ) : Option ℕ :=
  if b = 0 then none else some (a % b)

/-- `&buf[start..stop]`, or `none` where it would be out of bounds. -/
def checkedSlice (buf : List UInt8) (start stop : ℕ) : Option (List UInt8) :=
  if start ≤ stop ∧ stop ≤ buf.length then some (slice buf start stop) else none

/-- `buf[start..stop].copy_from_slice(data)`, which also needs the lengths to agree. -/
def checkedCopy (buf : List UInt8) (start stop : ℕ) (data : List UInt8) : Option (List UInt8) :=
  if start ≤ stop ∧ stop ≤ buf.length ∧ data.length = stop - start then
    some (copyFromSlice buf start data) else none

def checkedSplitAt (data : List UInt8) (mid : ℕ) : Option (List UInt8 × List UInt8) :=
  if mid ≤ data.length then some (data.take mid, data.drop mid) else none

theorem checkedSub_of_le (h : b ≤ a) : checkedSub a b = some (a - b) := if_pos h

theorem checkedRem_of_pos (h : 0 < b) : checkedRem a b = some (a % b) := if_neg h.ne'

theorem checkedSlice_of_le (h : start ≤ stop) (hstop : stop ≤ buf.length) :
    checkedSlice buf start stop = some (slice buf start stop) := if_pos ⟨h, hstop⟩

theorem checkedCopy_of_fits (h : start + data.length = stop) (hstop : stop ≤ buf.length) :
    checkedCopy buf start stop data = some (copyFromSlice buf start data) :=
  if_pos ⟨by omega, hstop, by omega⟩

theorem checkedSplitAt_of_le (h : n ≤ data.length) :
    checkedSplitAt data n = some (data.take n, data.drop n) := if_pos h

/-- The ring with nothing known of it, whose operations are `none` where the source would panic. -/
structure RawRing where
  buf : List UInt8
  pos : ℕ
  wrapped : Bool

namespace RawRing

variable (r : RawRing)

def new : RawRing := ⟨replicate ringBytes 0, 0, false⟩

def write (data : List UInt8) : Option RawRing := do
  let space ← checkedSub r.buf.length r.pos
  if data.length ≤ space then
    let buf ← checkedCopy r.buf r.pos (r.pos + data.length) data
    let pos := r.pos + data.length
    return if pos = buf.length then ⟨buf, 0, true⟩ else ⟨buf, pos, r.wrapped⟩
  else
    let (first, second) ← checkedSplitAt data space
    let buf ← checkedCopy r.buf r.pos r.buf.length first
    let buf ← checkedCopy buf 0 second.length second
    return ⟨buf, second.length, true⟩

def push (data : List UInt8) : Option RawRing := do
  if r.buf.length ≤ data.length then
    let start ← checkedSub data.length r.buf.length
    let data ← checkedSlice data start data.length
    { r with pos := 0, wrapped := true }.write data
  else r.write data

def tail (max : ℕ) : Option (List UInt8) := do
  let available := if r.wrapped then r.buf.length else r.pos
  let n := min max available
  if r.wrapped then
    let start ← checkedSub (r.pos + r.buf.length) n
    let start ← checkedRem start r.buf.length
    if start + n ≤ r.buf.length then checkedSlice r.buf start (start + n)
    else
      let first ← checkedSub r.buf.length start
      let out ← checkedSlice r.buf start r.buf.length
      let rest ← checkedSub n first
      let more ← checkedSlice r.buf 0 rest
      return out ++ more
  else checkedSlice r.buf (r.pos - n) r.pos

end RawRing

namespace Ring

variable (r : Ring size)

abbrev raw : RawRing := ⟨r.buf, r.pos, r.wrapped⟩

theorem raw_write (h : data.length ≤ size) : r.raw.write data = some (r.write data h).raw := by
  have hlen := r.length_buf
  have hpos := r.pos_lt
  have hspace : checkedSub r.buf.length r.pos = some (r.buf.length - r.pos) :=
    checkedSub_of_le (by omega)
  rw [RawRing.write, write]
  dsimp only [raw]
  rw [hspace, Option.bind_eq_bind, Option.bind_some]
  by_cases hfit : data.length ≤ r.buf.length - r.pos
  · have hroom : r.pos + data.length ≤ r.buf.length := by omega
    rw [if_pos hfit, dif_pos hfit, checkedCopy_of_fits rfl hroom, Option.bind_eq_bind,
      Option.bind_some, length_copyFromSlice hroom]
    by_cases hend : r.pos + data.length = r.buf.length
    · rw [if_pos hend, dif_pos hend]
      rfl
    · rw [if_neg hend, dif_neg hend]
      rfl
  · have hfirst : (data.take (r.buf.length - r.pos)).length = r.buf.length - r.pos :=
      length_take_of_le (Nat.le_of_not_le hfit)
    have hend : r.pos + (data.take (r.buf.length - r.pos)).length = r.buf.length := by omega
    have hrest : (data.drop (r.buf.length - r.pos)).length ≤
        (copyFromSlice r.buf r.pos (data.take (r.buf.length - r.pos))).length := by
      rw [length_copyFromSlice hend.le, length_drop]
      omega
    rw [if_neg hfit, dif_neg hfit, checkedSplitAt_of_le (by omega), Option.bind_eq_bind,
      Option.bind_some, checkedCopy_of_fits hend le_rfl, Option.bind_eq_bind, Option.bind_some,
      checkedCopy_of_fits (Nat.zero_add _) hrest]
    rfl

theorem raw_push (data : List UInt8) : r.raw.push data = some (r.push data).raw := by
  rw [push]
  by_cases h : r.buf.length ≤ data.length
  · have hslice : checkedSlice data (data.length - r.buf.length) data.length =
        some (data.drop (data.length - r.buf.length)) := by
      rw [checkedSlice_of_le (Nat.sub_le ..) le_rfl, slice, take_length]
    rw [dif_pos h, ← raw_write, RawRing.push, if_pos h, checkedSub_of_le h, Option.bind_eq_bind,
      Option.bind_some, hslice]
    rfl
  · rw [dif_neg h, ← raw_write]
    exact if_neg h

theorem raw_tail (max : ℕ) : r.raw.tail max = some (r.tail max) := by
  have hlen := r.length_buf
  have hpos := r.pos_lt
  rw [RawRing.tail, tail]
  dsimp only [raw]
  by_cases hw : r.wrapped
  · rw [if_pos hw, if_pos hw]
    have hstart := Nat.mod_lt (r.pos + r.buf.length - min max r.buf.length)
      (show r.buf.length > 0 by omega)
    rw [checkedSub_of_le (by omega), Option.bind_eq_bind, Option.bind_some,
      checkedRem_of_pos (by omega), Option.bind_eq_bind, Option.bind_some]
    split
    case isTrue h => exact checkedSlice_of_le (Nat.le_add_right ..) h
    case isFalse h =>
      rw [checkedSub_of_le hstart.le, Option.bind_some, checkedSlice_of_le hstart.le le_rfl,
        Option.bind_some, checkedSub_of_le (by omega), Option.bind_some,
        checkedSlice_of_le (Nat.zero_le _) (by omega)]
      simp [slice]
  · rw [if_neg hw, if_neg hw, if_neg hw]
    exact checkedSlice_of_le (Nat.sub_le ..) (by omega)

theorem raw_pushes (pushes : List (List UInt8)) :
    pushes.foldlM RawRing.push r.raw = some (pushes.foldl push r).raw := by
  induction pushes generalizing r with
  | nil => rfl
  | cons data pushes ih =>
    rw [foldlM_cons, raw_push]
    exact ih _

theorem content_pushes {history : List UInt8} (h : r.content = history.rtake size)
    (pushes : List (List UInt8)) :
    (pushes.foldl push r).content = (history ++ pushes.flatten).rtake size := by
  induction pushes generalizing r history with
  | nil => rw [flatten_nil, append_nil, foldl_nil, h]
  | cons data pushes ih =>
    rw [foldl_cons, flatten_cons, ← append_assoc]
    exact ih _ (r.content_push_of_history h data)

end Ring

/-- No push and no `tail` panics, and `tail` gives the last bytes of all that was pushed. -/
theorem ring_holds_latest_output (pushes : List (List UInt8)) (max : ℕ) :
    ∃ r, pushes.foldlM RawRing.push .new = some r ∧ r.tail max =
      some (pushes.flatten.rtake (min max (min ringBytes pushes.flatten.length))) := by
  have hcontent : (Ring.new ringBytes_pos).content = ([] : List UInt8).rtake ringBytes := by
    simp [Ring.content, Ring.new]
  refine ⟨_, (Ring.new ringBytes_pos).raw_pushes pushes, ?_⟩
  rw [Ring.raw_tail, Ring.tail_eq, Ring.content_pushes _ hcontent, nil_append, rtake_rtake,
    ← min_assoc, rtake_min]

end Temps.PtyAgent
