namespace Relevance.BigEndian

/-- The lowest `width` bytes of a number, the highest of them first. -/
def bytes : Nat → Nat → List UInt8
  | 0, _ => []
  | width + 1, n => UInt8.ofNat (n >>> (8 * width)) :: bytes width n

def byte? (buffer : ByteArray) (offset : Nat) : Option UInt8 :=
  if h : offset < buffer.size then some buffer[offset] else none

def read? (buffer : ByteArray) (offset : Nat) : Nat → Option Nat
  | 0 => some 0
  | width + 1 => do
    let high ← read? buffer offset width
    let low ← byte? buffer (offset + width)
    return high <<< 8 + low.toNat

/-- Overwrites the bytes from an offset on, unless they pass the end of the buffer. -/
def write? (buffer : ByteArray) (offset : Nat) : List UInt8 → Option ByteArray
  | [] => some buffer
  | byte :: rest =>
    if h : offset < buffer.size then write? (buffer.set offset byte h) (offset + 1) rest else none

@[simp] theorem length_bytes (width n : Nat) : (bytes width n).length = width := by
  induction width with
  | zero => rfl
  | succ width ih => rw [bytes, List.length_cons, ih]

theorem bytes_mod {width bits : Nat} (h : 8 * width ≤ bits) (n : Nat) :
    bytes width (n % 1 <<< bits) = bytes width n := by
  induction width with
  | zero => rfl
  | succ width ih =>
    have hhead : UInt8.ofNat ((n % 1 <<< bits) >>> (8 * width)) =
        UInt8.ofNat (n >>> (8 * width)) := by
      apply UInt8.toNat_inj.1
      rw [UInt8.toNat_ofNat', UInt8.toNat_ofNat', Nat.one_shiftLeft]
      apply Nat.eq_of_testBit_eq
      intro i
      rw [Nat.testBit_mod_two_pow, Nat.testBit_mod_two_pow, Nat.testBit_shiftRight,
        Nat.testBit_shiftRight, Nat.testBit_mod_two_pow]
      by_cases hi : i < 8
      · have hbit : 8 * width + i < bits := by omega
        simp only [hbit, decide_true, Bool.true_and]
      · simp only [hi, decide_false, Bool.false_and]
    rw [bytes, bytes, hhead, ih (by omega)]

theorem bytes_succ (width n : Nat) :
    bytes (width + 1) n = bytes width (n >>> 8) ++ [UInt8.ofNat n] := by
  induction width with
  | zero => simp [bytes]
  | succ width ih =>
    rw [bytes, ih, bytes, ← Nat.shiftRight_add, List.cons_append, Nat.mul_succ, Nat.add_comm 8]

theorem byte?_append {buffer : ByteArray} {front back : List UInt8} {byte : UInt8}
    (h : buffer.data.toList = front ++ byte :: back) : byte? buffer front.length = some byte := by
  have hsize : buffer.size = (front ++ byte :: back).length := by
    rw [← h]
    rfl
  have hlt : front.length < buffer.size := by
    rw [hsize, List.length_append, List.length_cons]
    omega
  rw [byte?, dif_pos hlt, ByteArray.getElem_eq_getElem_data, ← Array.getElem_toList]
  simp [h]

/-- A number written with `width` bytes is read back as far as they hold it. -/
theorem read?_append {buffer : ByteArray} {front back : List UInt8} {width n : Nat}
    (h : buffer.data.toList = front ++ bytes width n ++ back) :
    read? buffer front.length width = some (n % 1 <<< (8 * width)) := by
  induction width generalizing n back with
  | zero => rw [read?, Nat.mul_zero, Nat.shiftLeft_zero, Nat.mod_one]
  | succ width ih =>
    rw [bytes_succ, List.append_assoc, List.append_assoc, ← List.append_assoc] at h
    have hlow : byte? buffer (front.length + width) = some (UInt8.ofNat n) := by
      simpa using byte?_append h
    have hsplit : n % 1 <<< (8 * (width + 1)) =
        (n >>> 8 % 1 <<< (8 * width)) <<< 8 + (UInt8.ofNat n).toNat := by
      rw [UInt8.toNat_ofNat', Nat.one_shiftLeft, Nat.one_shiftLeft, Nat.shiftLeft_eq,
        Nat.shiftRight_eq_div_pow, Nat.mul_succ, Nat.add_comm (8 * width), Nat.pow_add, Nat.mod_mul,
        Nat.mul_comm, Nat.add_comm]
    rw [read?, ih h, hlow, hsplit]
    rfl

theorem write?_append {buffer : ByteArray} {front old back : List UInt8} (new : List UInt8)
    (h : buffer.data.toList = front ++ old ++ back) (hlength : old.length = new.length) :
    ∃ written, write? buffer front.length new = some written ∧
      written.data.toList = front ++ new ++ back := by
  induction new generalizing buffer front old with
  | nil => exact ⟨buffer, rfl, by rw [h, List.eq_nil_of_length_eq_zero hlength]⟩
  | cons byte new ih =>
    cases old with
    | nil => cases hlength
    | cons first old =>
      have hlt : front.length < buffer.size := by
        have hsize : buffer.size = (front ++ first :: old ++ back).length := by
          rw [← h]
          rfl
        rw [hsize, List.length_append, List.length_append, List.length_cons]
        omega
      have hset : (buffer.set front.length byte hlt).data.toList =
          (front ++ [byte]) ++ old ++ back := by
        simp [ByteArray.set, h]
      obtain ⟨written, hwrite, hwritten⟩ := ih hset (Nat.succ.inj hlength)
      refine ⟨written, ?_, by simpa using hwritten⟩
      rw [write?, dif_pos hlt]
      simpa using hwrite

end Relevance.BigEndian
