import Mathlib.Data.List.DropRight

namespace Temps.PtyAgent

open List

section Last

variable {α : Type*} {l a b : List α} {n : ℕ}

theorem rtake_of_append (h : l = a ++ b) (hb : b.length = n) : l.rtake n = b := by
  subst h hb
  simp [List.rtake]

theorem rtake_of_length_le (h : l.length ≤ n) : l.rtake n = l := by
  rw [List.rtake, Nat.sub_eq_zero_of_le h, drop_zero]

theorem rtake_min : l.rtake (min n l.length) = l.rtake n := by
  rw [List.rtake, List.rtake, show l.length - min n l.length = l.length - n by omega]

theorem rtake_rtake (l : List α) (m n : ℕ) : (l.rtake n).rtake m = l.rtake (min m n) := by
  rw [List.rtake, List.rtake, drop_drop, length_drop]
  congr 1
  omega

theorem rtake_append_of_le (h : n ≤ b.length) : (a ++ b).rtake n = b.rtake n := by
  have ha : a.drop ((a ++ b).length - n) = [] := drop_of_length_le (by rw [length_append]; omega)
  rw [List.rtake, drop_append, ha, nil_append]
  congr 1
  rw [length_append]
  omega

theorem rtake_rtake_append (l d : List α) (n : ℕ) :
    (l.rtake n ++ d).rtake n = (l ++ d).rtake n := by
  rcases le_total l.length n with hle | hle
  · rw [rtake_of_length_le hle]
  · have hsplit : l ++ d = l.take (l.length - n) ++ (l.rtake n ++ d) := by
      rw [List.rtake, ← append_assoc, take_append_drop]
    rw [hsplit]
    refine (rtake_append_of_le ?_).symm
    simp only [List.rtake, length_append, length_drop]
    omega

end Last

variable {buf data : List UInt8} {start size : ℕ}

def slice (buf : List UInt8) (start stop : ℕ) : List UInt8 := (buf.take stop).drop start

/-- `buf[start..start + data.len()].copy_from_slice(data)`. -/
def copyFromSlice (buf : List UInt8) (start : ℕ) (data : List UInt8) : List UInt8 :=
  buf.take start ++ data ++ buf.drop (start + data.length)

theorem length_copyFromSlice (h : start + data.length ≤ buf.length) :
    (copyFromSlice buf start data).length = buf.length := by
  simp only [copyFromSlice, length_append, length_take, length_drop]
  omega

variable (data) in
theorem take_copyFromSlice (h : start ≤ buf.length) :
    (copyFromSlice buf start data).take (start + data.length) = buf.take start ++ data := by
  rw [copyFromSlice, take_left']
  simp [h]

variable (data) in
theorem drop_copyFromSlice (h : start ≤ buf.length) :
    (copyFromSlice buf start data).drop (start + data.length) = buf.drop (start + data.length) := by
  rw [copyFromSlice, drop_left']
  simp [h]

theorem slice_append_drop {stop : ℕ} (h : start ≤ stop) (hstop : stop ≤ buf.length) :
    slice buf start stop ++ buf.drop stop = buf.drop start := by
  have hsplit : (buf.take stop ++ buf.drop stop).drop start = slice buf start stop ++ buf.drop stop :=
    drop_append_of_le_length (by simp; omega)
  rw [← hsplit, take_append_drop]

structure Ring (size : ℕ) where
  buf : List UInt8
  pos : ℕ
  wrapped : Bool
  length_buf : buf.length = size
  pos_lt : pos < size

namespace Ring

variable (r : Ring size)

def new (h : 0 < size) : Ring size where
  buf := List.replicate size 0
  pos := 0
  wrapped := false
  length_buf := List.length_replicate
  pos_lt := h

/-- The write of what is left of the data once it is cut to the ring: in one piece, or up to the end
of the ring and on from its start. -/
def write (data : List UInt8) (h : data.length ≤ size) : Ring size :=
  let space := r.buf.length - r.pos
  if hfit : data.length ≤ space then
    have hroom : r.pos + data.length ≤ r.buf.length := by
      have := r.length_buf
      have := r.pos_lt
      omega
    have hbuf := (length_copyFromSlice hroom).trans r.length_buf
    if hend : r.pos + data.length = r.buf.length then
      ⟨copyFromSlice r.buf r.pos data, 0, true, hbuf, Nat.zero_lt_of_lt r.pos_lt⟩
    else
      ⟨copyFromSlice r.buf r.pos data, r.pos + data.length, r.wrapped, hbuf, by
        have := r.length_buf
        omega⟩
  else
    let first := data.take space
    let second := data.drop space
    have hspace : r.pos + first.length = r.buf.length := by
      have := r.length_buf
      have := r.pos_lt
      simp only [first, space, List.length_take]
      omega
    have hsecond : second.length ≤ r.pos := by
      have := r.length_buf
      simp only [second, space, List.length_drop]
      omega
    ⟨copyFromSlice (copyFromSlice r.buf r.pos first) 0 second, second.length, true, by
      rw [length_copyFromSlice, length_copyFromSlice hspace.le, r.length_buf]
      rw [length_copyFromSlice hspace.le]
      omega, hsecond.trans_lt r.pos_lt⟩

def push (data : List UInt8) : Ring size :=
  if h : r.buf.length ≤ data.length then
    { r with pos := 0, wrapped := true, pos_lt := Nat.zero_lt_of_lt r.pos_lt }.write
      (data.drop (data.length - r.buf.length)) (by
        have := r.length_buf
        rw [List.length_drop]
        omega)
  else r.write data (by have := r.length_buf; omega)

def tail (max : ℕ) : List UInt8 :=
  let available := if r.wrapped then r.buf.length else r.pos
  let n := min max available
  if r.wrapped then
    -- the oldest byte is at `pos`, the newest one before it
    let start := (r.pos + r.buf.length - n) % r.buf.length
    if start + n ≤ r.buf.length then slice r.buf start (start + n)
    else
      let first := r.buf.length - start
      r.buf.drop start ++ r.buf.take (n - first)
  else slice r.buf (r.pos - n) r.pos

def content : List UInt8 :=
  if r.wrapped then r.buf.drop r.pos ++ r.buf.take r.pos else r.buf.take r.pos

theorem length_content_wrapped (h : r.wrapped) : r.content.length = size := by
  have := r.length_buf
  simp only [content, h, if_true, length_append, length_drop, length_take]
  omega

theorem content_write_of_fits (h : data.length ≤ size) (hfit : data.length ≤ r.buf.length - r.pos) :
    (r.write data h).content = (r.content ++ data).rtake size := by
  have hlen := r.length_buf
  have hpos := r.pos_lt
  have hle : r.pos ≤ r.buf.length := by omega
  symm
  rw [write, dif_pos hfit]
  split
  case isTrue hend =>
    have hbuf : copyFromSlice r.buf r.pos data = r.buf.take r.pos ++ data := by
      rw [copyFromSlice, drop_of_length_le (by omega), append_nil]
    cases hw : r.wrapped with
    | false =>
      simp only [content, hw, hbuf, take_zero, append_nil]
      exact rtake_of_length_le (by simp; omega)
    | true =>
      refine rtake_of_append (a := r.buf.drop r.pos) ?_ (by simp [content, hbuf]; omega)
      simp [content, hw, hbuf]
  case isFalse hend =>
    cases hw : r.wrapped with
    | false =>
      simp only [content, hw, take_copyFromSlice data hle]
      exact rtake_of_length_le (by simp; omega)
    | true =>
      refine rtake_of_append (a := slice r.buf r.pos (r.pos + data.length)) ?_ ?_
      · simp only [content, hw, if_true, take_copyFromSlice data hle, drop_copyFromSlice data hle]
        rw [← slice_append_drop (Nat.le_add_right r.pos data.length) (by omega)]
        simp only [append_assoc]
      · exact length_content_wrapped _ rfl

theorem content_write (h : data.length ≤ size) :
    (r.write data h).content = (r.content ++ data).rtake size := by
  by_cases hfit : data.length ≤ r.buf.length - r.pos
  · exact r.content_write_of_fits h hfit
  · -- the ring is filled up to its end, then its first bytes are overwritten with the rest
    have hlen := r.length_buf
    have hpos := r.pos_lt
    have hfirst : (data.take (r.buf.length - r.pos)).length = r.buf.length - r.pos :=
      length_take_of_le (Nat.le_of_not_le hfit)
    have hend : r.pos + (r.buf.length - r.pos) = r.buf.length := by omega
    have hroom : data.length ≤ size + (r.buf.length - r.pos) := by omega
    have hlt : data.length - (r.buf.length - r.pos) < size := by omega
    have hbuf : (copyFromSlice r.buf r.pos (data.take (r.buf.length - r.pos))).length = size := by
      rw [length_copyFromSlice (by omega), hlen]
    have hwrite : r.write data h = (r.write (data.take (r.buf.length - r.pos)) (by omega)).write
        (data.drop (r.buf.length - r.pos)) (by simpa using hroom) := by
      simp [write, hfit, hfirst, hend, hbuf, hroom, hlt.ne]
    rw [hwrite, content_write_of_fits, content_write_of_fits _ _ hfirst.le, rtake_rtake_append,
      append_assoc, take_append_drop]
    simp [write, hfirst, hend, hbuf, hroom]

theorem content_push (data : List UInt8) :
    (r.push data).content = (r.content ++ data).rtake size := by
  rw [push]
  split
  case isFalse h => exact r.content_write _
  case isTrue h =>
    rw [content_write]
    have hdata : (data.drop (data.length - r.buf.length)).length = size := by
      have := r.length_buf
      rw [length_drop]
      omega
    rw [rtake_of_append rfl hdata]
    symm
    refine rtake_of_append (a := r.content ++ data.take (data.length - r.buf.length)) ?_ hdata
    rw [append_assoc, take_append_drop]

theorem tail_eq (max : ℕ) : r.tail max = r.content.rtake max := by
  have hlen := r.length_buf
  have hpos := r.pos_lt
  rw [tail]
  cases hw : r.wrapped with
  | false =>
    have hstart : r.pos - min max r.pos = (r.buf.take r.pos).length - max := by
      rw [length_take]
      omega
    simp only [content, hw, slice, List.rtake, Bool.false_eq_true, if_false, hstart]
  | true =>
    have hcontent : r.content.length = r.buf.length := by rw [length_content_wrapped r hw, hlen]
    rw [← rtake_min]
    simp only [if_true]
    symm
    rcases le_or_gt (min max r.buf.length) r.pos with hn | hn
    · have hstart : (r.pos + r.buf.length - min max r.buf.length) % r.buf.length =
          r.pos - min max r.buf.length := by
        rw [show r.pos + r.buf.length - min max r.buf.length =
          r.pos - min max r.buf.length + r.buf.length by omega, Nat.add_mod_right,
          Nat.mod_eq_of_lt (by omega)]
      rw [hstart, Nat.sub_add_cancel hn, if_pos (by omega)]
      refine rtake_of_append
        (a := r.buf.drop r.pos ++ (r.buf.take r.pos).take (r.pos - min max r.buf.length)) ?_ ?_
      · simp only [content, hw, if_true, slice, append_assoc, take_append_drop]
      · simp only [slice, length_drop, length_take]
        omega
    · have hstart : (r.pos + r.buf.length - min max r.buf.length) % r.buf.length =
          r.pos + r.buf.length - min max r.buf.length := Nat.mod_eq_of_lt (by omega)
      rw [hstart]
      set start := r.pos + r.buf.length - min max r.buf.length with hdef
      have hout : (if start + min max r.buf.length ≤ r.buf.length then
          slice r.buf start (start + min max r.buf.length)
        else r.buf.drop start ++ r.buf.take (min max r.buf.length - (r.buf.length - start))) =
          r.buf.drop start ++ r.buf.take r.pos := by
        split
        · have hzero : r.pos = 0 := by omega
          rw [slice, take_of_length_le (by omega), hzero, take_zero, append_nil]
        · congr 2
          omega
      rw [hout]
      refine rtake_of_append (a := slice r.buf r.pos start) ?_ ?_
      · rw [content, if_pos hw, ← append_assoc, slice_append_drop (by omega) (by omega)]
      · simp only [length_append, length_drop, length_take]
        omega

theorem content_push_of_history {history : List UInt8} (h : r.content = history.rtake size)
    (data : List UInt8) : (r.push data).content = (history ++ data).rtake size := by
  rw [content_push, h, rtake_rtake_append]

end Ring

end Temps.PtyAgent
