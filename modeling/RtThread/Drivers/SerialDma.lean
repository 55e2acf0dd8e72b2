import RtThread.Drivers.SerialRx

/-! The receive buffer of a serial device that is opened with `RT_DEVICE_FLAG_DMA_RX`. -/

namespace RtThread

open Transition List Ring

namespace SerialRxFifo

def calcRecvedLen (bufsz : ℕ) (f : SerialRxFifo) : ℕ :=
  if f.getIndex < f.putIndex then f.putIndex - f.getIndex
  else if f.putIndex < f.getIndex then bufsz - (f.getIndex - f.putIndex)
  else if f.isFull then bufsz else 0

def updateGetIndex (bufsz : ℕ) (f : SerialRxFifo) (len : ℕ) : SerialRxFifo :=
  let getIndex := (f.getIndex + len) % 65536
  { f with
    isFull := if f.isFull = true ∧ len ≠ 0 then false else f.isFull
    getIndex := if bufsz < getIndex then getIndex % bufsz else getIndex }

def movePutIndex (bufsz : ℕ) (f : SerialRxFifo) (len : ℕ) : SerialRxFifo :=
  let putIndex := (f.putIndex + len) % 65536
  if f.getIndex ≤ f.putIndex then
    if bufsz ≤ putIndex then
      let putIndex := putIndex % bufsz
      if f.getIndex ≤ putIndex then { f with putIndex, getIndex := putIndex, isFull := true }
      else { f with putIndex }
    else { f with putIndex }
  else if f.getIndex ≤ putIndex then
    let putIndex := if bufsz ≤ putIndex then putIndex % bufsz else putIndex
    { f with putIndex, getIndex := putIndex, isFull := true }
  else { f with putIndex }

def updatePutIndex (bufsz : ℕ) (f : SerialRxFifo) (len : ℕ) : SerialRxFifo :=
  let f := f.movePutIndex bufsz len
  if bufsz ≤ f.getIndex then { f with getIndex := 0 } else f

def dmaRx (bufsz : ℕ) (f : SerialRxFifo) (length : BitVec 32) : SerialRxFifo × List (BitVec 8) × ℕ :=
  let recved := f.calcRecvedLen bufsz
  let recvLen := if length.toNat < recved then length.toNat else recved
  let data :=
    if f.getIndex + recvLen < bufsz then Ring.copyOut f.buffer f.getIndex recvLen
    else Ring.copyOut f.buffer f.getIndex (bufsz - f.getIndex) ++
      Ring.copyOut f.buffer 0 (recvLen + f.getIndex - bufsz)
  (f.updateGetIndex bufsz recvLen, data, recvLen)

end SerialRxFifo

structure DmaRead where
  data : List (BitVec 8)
  count : ℕ
  oldest : List (BitVec 8)
  deriving DecidableEq

structure SerialDma where
  fifo : SerialRxFifo
  dmaIndex : ℕ
  unread : List (BitVec 8)
  reads : List DmaRead

inductive SerialDmaEvent
  | dmaDone (bytes : List (BitVec 8))
  | read (length : BitVec 32)
  deriving DecidableEq

namespace SerialDma

def step (bufsz : ℕ) (s : SerialDma) : SerialDmaEvent → Option SerialDma
  | .dmaDone bytes =>
    if bytes.length ≤ bufsz then
      let f := { s.fifo with buffer := Ring.writeBlock bufsz s.fifo.buffer s.dmaIndex bytes }
      some { s with
        fifo := f.updatePutIndex bufsz bytes.length
        dmaIndex := (s.dmaIndex + bytes.length) % bufsz
        unread := (s.unread ++ bytes).rtake bufsz }
    else none
  | .read length =>
    let (f, data, count) := s.fifo.dmaRx bufsz length
    let n := min length.toNat s.unread.length
    some { s with
      fifo := f
      unread := s.unread.drop n
      reads := s.reads ++ [{ data, count, oldest := s.unread.take n }] }

def opened : SerialDma where
  fifo := .opened false
  dmaIndex := 0
  unread := []
  reads := []

structure KeepsNewest (bufsz : ℕ) (s : SerialDma) : Prop where
  calc_eq : s.fifo.calcRecvedLen bufsz = s.unread.length
  bounded : s.unread.length ≤ bufsz
  oldest : ∀ r ∈ s.reads, r.data = r.oldest ∧ r.count = r.oldest.length

def Fits (bufsz : ℕ) (s : SerialDma) : SerialDmaEvent → Prop
  | .dmaDone bytes =>
    (s.unread.length = bufsz → bytes.length = 0 ∨ bytes.length = bufsz) ∧ s.fifo.putIndex + bytes.length < 65536
  | .read length => s.fifo.getIndex + min length.toNat s.unread.length < 65536

end SerialDma

namespace SerialRxFifo

structure Encodes (bufsz : ℕ) (f : SerialRxFifo) (len : ℕ) : Prop where
  get_le : f.getIndex ≤ bufsz
  put_lt : f.putIndex < bufsz
  len_le : len ≤ bufsz
  full_iff : f.isFull = true ↔ len = bufsz
  ahead : f.getIndex + len = f.putIndex ∨ f.getIndex + len = f.putIndex + bufsz

variable {bufsz len k : ℕ} {f : SerialRxFifo}

theorem Encodes.calc_eq (h : f.Encodes bufsz len) : f.calcRecvedLen bufsz = len := by
  obtain ⟨-, -, hle, hfull, hahead⟩ := h
  unfold calcRecvedLen
  split_ifs with h1 h2 h3
  · omega
  · omega
  · exact (hfull.mp h3).symm
  · have := mt hfull.mpr h3
    omega

theorem Encodes.ring (h : f.Encodes bufsz len) : Ring.Valid bufsz (f.getIndex % bufsz) f.putIndex len := by
  have hput := h.put_lt
  refine ⟨h.len_le, Nat.mod_lt _ (by omega), hput, ?_⟩
  rw [Nat.mod_add_mod]
  obtain ha | ha := h.ahead
  · rw [ha, Nat.mod_eq_of_lt hput]
  · rw [ha, Nat.add_mod_right, Nat.mod_eq_of_lt hput]

theorem updateGetIndex_isFull (f : SerialRxFifo) (bufsz k : ℕ) :
    (f.updateGetIndex bufsz k).isFull = true ↔ f.isFull = true ∧ k = 0 := by
  simp only [updateGetIndex]
  split_ifs with hf
  · exact iff_of_false not_false (fun h => hf.2 h.2)
  · exact ⟨fun h => ⟨h, by_contra (fun hk => hf ⟨h, hk⟩)⟩, And.left⟩

theorem updateGetIndex_getIndex (f : SerialRxFifo) (bufsz : ℕ) {k i : ℕ} (h : (f.getIndex + k) % 65536 = i) :
    (f.updateGetIndex bufsz k).getIndex = if bufsz < i then i % bufsz else i := by
  rw [← h]
  rfl

section

variable (h : f.Encodes bufsz len)

include h

theorem Encodes.updateGetIndex (hk : k ≤ len) (hlt : f.getIndex + k < 65536) :
    (f.updateGetIndex bufsz k).Encodes bufsz (len - k) ∧
      (f.updateGetIndex bufsz k).getIndex % bufsz = (f.getIndex + k) % bufsz := by
  obtain ⟨-, hput, hle, hfull, hahead⟩ := h
  have hfull' : (f.updateGetIndex bufsz k).isFull = true ↔ len - k = bufsz := by
    rw [updateGetIndex_isFull, hfull]
    omega
  have hput' : (f.updateGetIndex bufsz k).putIndex = f.putIndex := rfl
  have hget' := updateGetIndex_getIndex f bufsz (Nat.mod_eq_of_lt hlt)
  split_ifs at hget' with hw
  · have hmod : (f.getIndex + k) % bufsz = f.getIndex + k - bufsz := mod_of_wrapped hw.le (by omega)
    exact ⟨⟨by omega, hput, by omega, hfull', by omega⟩, by rw [hget', Nat.mod_mod]⟩
  · exact ⟨⟨by omega, hput, by omega, hfull', by omega⟩, by rw [hget']⟩

theorem Encodes.updateGetIndex_overflow (hbuf : bufsz ≤ 65535) (hk : k ≤ len)
    (hge : 65536 ≤ f.getIndex + k) : (f.updateGetIndex bufsz k).calcRecvedLen bufsz ≠ len - k := by
  obtain ⟨hget, -, hle, -, hahead⟩ := h
  have hput' : (f.updateGetIndex bufsz k).putIndex = f.putIndex := rfl
  have hget' := updateGetIndex_getIndex f bufsz (show (f.getIndex + k) % 65536 = f.getIndex + k - 65536 by omega)
  have hfull' : ¬ (f.updateGetIndex bufsz k).isFull = true := by
    rw [updateGetIndex_isFull]
    omega
  unfold calcRecvedLen
  rw [hget']
  split_ifs <;> omega

theorem movePutIndex_of_lt (hlt : f.putIndex + k < 65536) (hroom : len + k < bufsz) :
    f.movePutIndex bufsz k = { f with putIndex := (f.putIndex + k) % bufsz } := by
  obtain ⟨hget, -, hle, -, hahead⟩ := h
  simp only [movePutIndex, Nat.mod_eq_of_lt hlt]
  by_cases hwrap : bufsz ≤ f.putIndex + k
  · have hmod : (f.putIndex + k) % bufsz = f.putIndex + k - bufsz := mod_of_wrapped hwrap (by omega)
    rw [if_pos (by omega), if_pos hwrap, if_neg (by omega)]
  · rw [if_neg hwrap, Nat.mod_eq_of_lt (by omega)]
    by_cases hle : f.getIndex ≤ f.putIndex
    · rw [if_pos hle]
    · rw [if_neg hle, if_neg (by omega)]

section

variable (hk : k ≤ bufsz) (hlt : f.putIndex + k < 65536)

include hk hlt

theorem movePutIndex_of_ge (hroom : bufsz ≤ len + k) (hfit : len = bufsz → k = 0 ∨ k = bufsz) :
    f.movePutIndex bufsz k = { f with
      putIndex := (f.putIndex + k) % bufsz, getIndex := (f.putIndex + k) % bufsz, isFull := true } := by
  obtain ⟨-, hput, hle, hfull, hahead⟩ := h
  simp only [movePutIndex, Nat.mod_eq_of_lt hlt]
  by_cases hwrap : bufsz ≤ f.putIndex + k
  · have hmod : (f.putIndex + k) % bufsz = f.putIndex + k - bufsz := mod_of_wrapped hwrap (by omega)
    rw [if_pos hwrap, if_pos hwrap]
    by_cases hle : f.getIndex ≤ f.putIndex
    · rw [if_pos hle, if_pos (by omega)]
    · rw [if_neg hle, if_pos (by omega)]
  · rw [if_neg hwrap, if_neg hwrap, Nat.mod_eq_of_lt (by omega)]
    by_cases hle : f.getIndex ≤ f.putIndex
    -- no byte has come to a buffer that was full already
    · have hlen : len = bufsz := by omega
      obtain rfl : k = 0 := by have := hfit hlen; omega
      have hsame : f.getIndex = f.putIndex := by omega
      rw [if_pos hle, Nat.add_zero, ← hsame, ← hfull.mpr hlen]
    · rw [if_neg hle, if_pos (by omega)]

theorem Encodes.updatePutIndex (hfit : len = bufsz → k = 0 ∨ k = bufsz) :
    (f.updatePutIndex bufsz k).Encodes bufsz (min (len + k) bufsz) ∧
      (f.updatePutIndex bufsz k).getIndex % bufsz = (f.getIndex + (len + k - bufsz)) % bufsz ∧
      (f.updatePutIndex bufsz k).putIndex = (f.putIndex + k) % bufsz ∧
      (f.updatePutIndex bufsz k).buffer = f.buffer := by
  have hput := h.put_lt
  have hget := h.get_le
  have hahead := h.ahead
  have hput' : (f.putIndex + k) % bufsz < bufsz := Nat.mod_lt _ (by omega)
  have hmod : (f.putIndex + k) % bufsz = if bufsz ≤ f.putIndex + k then f.putIndex + k -
    bufsz else f.putIndex + k := by
    split_ifs with hwrap
    · exact mod_of_wrapped hwrap (by omega)
    · exact Nat.mod_eq_of_lt (by omega)
  unfold SerialRxFifo.updatePutIndex
  obtain hroom | hroom := Nat.lt_or_ge (len + k) bufsz
  · rw [movePutIndex_of_lt h hlt hroom, Nat.min_eq_left hroom.le, Nat.sub_eq_zero_of_le hroom.le, Nat.add_zero]
    have hfull : f.isFull = true ↔ len + k = bufsz := by
      rw [h.full_iff]
      omega
    by_cases hend : bufsz ≤ f.getIndex
    · rw [if_pos hend]
      refine ⟨⟨Nat.zero_le _, hput', hroom.le, hfull, ?_⟩, ?_, rfl, rfl⟩
      · dsimp only
        rw [hmod]
        split_ifs <;> omega
      · rw [show f.getIndex = bufsz by omega, Nat.mod_self, Nat.zero_mod]
    · rw [if_neg hend]
      refine ⟨⟨hget, hput', hroom.le, hfull, ?_⟩, rfl, rfl, rfl⟩
      dsimp only
      rw [hmod]
      split_ifs <;> omega
  · rw [movePutIndex_of_ge h hk hlt hroom hfit, Nat.min_eq_right hroom]
    rw [if_neg (Nat.not_le.mpr hput')]
    refine ⟨⟨hput'.le, hput', le_rfl, by simp, .inr rfl⟩, ?_, rfl, rfl⟩
    rw [Nat.mod_mod]
    obtain ha | ha := hahead
    · rw [show f.putIndex + k = f.getIndex + (len + k - bufsz) + bufsz by omega, Nat.add_mod_right]
    · rw [show f.putIndex + k = f.getIndex + (len + k - bufsz) by omega]

end

theorem Encodes.updatePutIndex_overflow (hbuf : bufsz ≤ 65535) (hk : k ≤ bufsz)
    (hge : 65536 ≤ f.putIndex + k) : (f.updatePutIndex bufsz k).calcRecvedLen bufsz ≠ min (len + k) bufsz := by
  obtain ⟨-, hput, hle, hfull, hahead⟩ := h
  have hmove : f.movePutIndex bufsz k = { f with putIndex := f.putIndex + k - 65536 } := by
    have hmod : (f.putIndex + k) % 65536 = f.putIndex + k - 65536 := by omega
    simp only [movePutIndex, hmod]
    by_cases hle : f.getIndex ≤ f.putIndex
    · rw [if_pos hle, if_neg (by omega)]
    · rw [if_neg hle, if_neg (by omega)]
  simp only [SerialRxFifo.updatePutIndex, hmove]
  by_cases hend : bufsz ≤ f.getIndex
  · have hnot : ¬ f.isFull = true := by
      rw [hfull]
      omega
    simp only [if_pos hend, calcRecvedLen, if_neg hnot]
    split_ifs <;> omega
  · simp only [if_neg hend, calcRecvedLen]
    split_ifs with h1 h2 h3
    · omega
    · omega
    · have := hfull.mp h3
      omega
    · omega

end

theorem Encodes.updatePutIndex_full (h : f.Encodes bufsz bufsz) (hlt : f.putIndex + k < 65536) (hpos : 0 < k)
    (hk : k < bufsz) : (f.updatePutIndex bufsz k).calcRecvedLen bufsz = k := by
  obtain ⟨-, hput, -, -, hahead⟩ := h
  have hsame : f.getIndex = f.putIndex := by omega
  have hnot : ¬ bufsz ≤ f.getIndex := by omega
  have hmove : f.movePutIndex bufsz k = { f with putIndex := (f.putIndex + k) % bufsz } := by
    simp only [movePutIndex, Nat.mod_eq_of_lt hlt, if_pos hsame.le]
    by_cases hwrap : bufsz ≤ f.putIndex + k
    · rw [if_pos hwrap, mod_of_wrapped hwrap (by omega), if_neg (by omega)]
    · rw [if_neg hwrap, Nat.mod_eq_of_lt (by omega)]
  simp only [SerialRxFifo.updatePutIndex, hmove, if_neg hnot, calcRecvedLen]
  by_cases hwrap : bufsz ≤ f.putIndex + k
  · rw [mod_of_wrapped hwrap (by omega), if_neg (by omega), if_pos (by omega)]
    omega
  · rw [Nat.mod_eq_of_lt (by omega), if_pos (by omega)]
    omega

variable (h : f.Encodes bufsz len) (hbuf : bufsz ≤ 65535)

include h hbuf

theorem Encodes.calc_updatePutIndex_iff (hk : k ≤ bufsz) :
    (f.updatePutIndex bufsz k).calcRecvedLen bufsz = min (len + k) bufsz ↔
      (len = bufsz → k = 0 ∨ k = bufsz) ∧ f.putIndex + k < 65536 := by
  constructor
  · intro hcalc
    have hlt : f.putIndex + k < 65536 := by
      by_contra hge
      exact h.updatePutIndex_overflow hbuf hk (Nat.le_of_not_lt hge) hcalc
    refine ⟨?_, hlt⟩
    rintro rfl
    by_contra hne
    rw [h.updatePutIndex_full hlt (by omega) (by omega)] at hcalc
    omega
  · rintro ⟨hfit, hlt⟩
    exact (h.updatePutIndex hk hlt hfit).1.calc_eq

theorem Encodes.calc_updateGetIndex_iff (hk : k ≤ len) :
    (f.updateGetIndex bufsz k).calcRecvedLen bufsz = len - k ↔ f.getIndex + k < 65536 := by
  constructor
  · intro hcalc
    by_contra hge
    exact h.updateGetIndex_overflow hbuf hk (Nat.le_of_not_lt hge) hcalc
  · intro hlt
    exact (h.updateGetIndex hk hlt).1.calc_eq

end SerialRxFifo

namespace SerialDma

structure Inv (bufsz : ℕ) (s : SerialDma) : Prop where
  size_le : bufsz ≤ 65535
  encodes : s.fifo.Encodes bufsz s.unread.length
  dma_eq : s.dmaIndex = s.fifo.putIndex
  unread_eq : Ring.contents s.fifo.buffer bufsz (s.fifo.getIndex % bufsz) s.unread.length = s.unread

variable {bufsz : ℕ} {s t : SerialDma}

theorem length_rtake {α : Type} (l : List α) (n : ℕ) : (l.rtake n).length = min l.length n := by
  rw [List.rtake, length_drop]
  omega

theorem Inv.written (h : s.Inv bufsz) (bytes : List (BitVec 8)) :
    SerialRxFifo.Encodes bufsz { s.fifo with buffer := Ring.writeBlock bufsz s.fifo.buffer s.dmaIndex bytes }
      s.unread.length :=
  ⟨h.encodes.get_le, h.encodes.put_lt, h.encodes.len_le, h.encodes.full_iff, h.encodes.ahead⟩

theorem length_newest (s : SerialDma) (bufsz : ℕ) (bytes : List (BitVec 8)) :
    ((s.unread ++ bytes).rtake bufsz).length = min (s.unread.length + bytes.length) bufsz := by
  rw [length_rtake, length_append]

section

variable (h : s.Inv bufsz)

include h

theorem Inv.dmaDone {bytes : List (BitVec 8)} (hfits : s.Fits bufsz (.dmaDone bytes))
    (ht : s.step bufsz (.dmaDone bytes) = some t) : t.Inv bufsz := by
  obtain ⟨hle, ht⟩ := Option.ite_none_right_eq_some.mp ht
  cases ht
  have hput := h.encodes.put_lt
  obtain ⟨henc, hget, hput', hbuffer⟩ := (h.written bytes).updatePutIndex hle hfits.2 hfits.1
  have hlen := s.length_newest bufsz bytes
  refine ⟨h.size_le, hlen ▸ henc, ?_, ?_⟩
  · rw [hput', h.dma_eq]
  · -- the overwritten bytes are dropped first, and then there is room for the new ones
    generalize hd : s.unread.length + bytes.length - bufsz = d at hget
    have hdle : d ≤ s.unread.length := by omega
    have hring := h.encodes.ring.drop hdle
    have hwritten : Ring.Written bufsz s.fifo.putIndex bytes s.fifo.buffer
        (writeBlock bufsz s.fifo.buffer s.dmaIndex bytes) := h.dma_eq ▸ written_writeBlock (h.dma_eq ▸ hput) hle
    have hwrite := hring.contents_write (by omega) hwritten
    rw [contents_drop hdle, h.unread_eq] at hwrite
    rw [hlen, List.rtake, length_append, hd, drop_append_of_le_length hdle, ← hwrite, Nat.mod_add_mod]
    congr 1
    omega

theorem Inv.dmaRx_eq (length : BitVec 32) :
    s.fifo.dmaRx bufsz length = (s.fifo.updateGetIndex bufsz (min length.toNat s.unread.length),
      s.unread.take (min length.toNat s.unread.length), min length.toNat s.unread.length) := by
  have hget := h.encodes.get_le
  have hle := h.encodes.len_le
  have hcut : (if length.toNat < s.unread.length then length.toNat else s.unread.length) =
      min length.toNat s.unread.length := by
    split_ifs <;> omega
  have htake : s.unread.take (min length.toNat s.unread.length) =
      contents s.fifo.buffer bufsz (s.fifo.getIndex % bufsz) (min length.toNat s.unread.length) := by
    rw [contents_take (Nat.min_le_right ..), h.unread_eq]
  simp only [SerialRxFifo.dmaRx, h.encodes.calc_eq, hcut, htake]
  generalize hk : min length.toNat s.unread.length = k
  congr 2
  split_ifs with hin
  · rw [Nat.mod_eq_of_lt (by omega), copyOut_eq_contents (n := bufsz) (by omega)]
  · by_cases hend : s.fifo.getIndex = bufsz
    · rw [hend, Nat.sub_self, Nat.mod_self, Nat.add_sub_cancel]
      exact copyOut_eq_contents (by omega)
    · rw [Nat.mod_eq_of_lt (by omega), show k + s.fifo.getIndex - bufsz = k - (bufsz - s.fifo.getIndex) by omega,
        copyOut_append_copyOut (by omega) (by omega) (by omega)]

theorem Inv.step_read (length : BitVec 32) : s.step bufsz (.read length) = some { s with
      fifo := s.fifo.updateGetIndex bufsz (min length.toNat s.unread.length)
      unread := s.unread.drop (min length.toNat s.unread.length)
      reads := s.reads ++ [{
        data := s.unread.take (min length.toNat s.unread.length), count := min length.toNat s.unread.length
        oldest := s.unread.take (min length.toNat s.unread.length) }] } := by
  rw [step, h.dmaRx_eq]

theorem Inv.read {length : BitVec 32} (hfits : s.Fits bufsz (.read length))
    (ht : s.step bufsz (.read length) = some t) : t.Inv bufsz := by
  have hk := Nat.min_le_right length.toNat s.unread.length
  rw [h.step_read] at ht
  cases ht
  obtain ⟨henc, hget⟩ := h.encodes.updateGetIndex hk hfits
  refine ⟨h.size_le, length_drop ▸ henc, h.dma_eq, ?_⟩
  rw [hget, length_drop, ← Nat.mod_add_mod, contents_drop hk]
  exact congrArg (List.drop _) h.unread_eq

theorem Inv.step {e : SerialDmaEvent} (hfits : s.Fits bufsz e) (ht : s.step bufsz e = some t) : t.Inv bufsz := by
  cases e with
  | dmaDone bytes => exact h.dmaDone hfits ht
  | read length => exact h.read hfits ht

theorem Inv.keepsNewest_iff (hs : s.KeepsNewest bufsz) {e : SerialDmaEvent}
    (ht : s.step bufsz e = some t) : t.KeepsNewest bufsz ↔ s.Fits bufsz e := by
  cases e with
  | dmaDone bytes =>
    obtain ⟨hle, ht⟩ := Option.ite_none_right_eq_some.mp ht
    cases ht
    have hlen := s.length_newest bufsz bytes
    have hiff := (h.written bytes).calc_updatePutIndex_iff h.size_le hle
    exact ⟨fun ht => hiff.mp (ht.calc_eq.trans hlen), fun hfits =>
      ⟨(hiff.mpr hfits).trans hlen.symm, hlen ▸ Nat.min_le_right .., hs.oldest⟩⟩
  | read length =>
    have hk := Nat.min_le_right length.toNat s.unread.length
    rw [h.step_read] at ht
    cases ht
    have hiff := h.encodes.calc_updateGetIndex_iff h.size_le hk
    refine ⟨fun ht => hiff.mp (ht.calc_eq.trans length_drop), fun hfits =>
      ⟨(hiff.mpr hfits).trans length_drop.symm, ?_, ?_⟩⟩
    · have := h.encodes.len_le
      rw [length_drop]
      omega
    · refine forall_mem_append.mpr ⟨hs.oldest, forall_mem_singleton.mpr ⟨rfl, ?_⟩⟩
      rw [length_take, Nat.min_eq_left hk]

end

theorem opened_inv (h : 1 ≤ bufsz) (hle : bufsz ≤ 65535) : opened.Inv bufsz :=
  ⟨hle, ⟨Nat.zero_le _, h, Nat.zero_le _, iff_of_false Bool.false_ne_true (by show 0 ≠ bufsz; omega),
    .inl rfl⟩, rfl, rfl⟩

theorem opened_keepsNewest (bufsz : ℕ) : opened.KeepsNewest bufsz :=
  ⟨rfl, Nat.zero_le _, nofun⟩

theorem serial_dma_keeps_newest_iff (bufsz : BitVec 16) (hsize : 1 ≤ bufsz.toNat) (events : List SerialDmaEvent) :
    StatesAlong (step bufsz.toNat) (KeepsNewest bufsz.toNat) opened events ↔
      StepsAlong (step bufsz.toNat) (Fits bufsz.toNat) opened events :=
  statesAlong_iff_stepsAlong_of_kept (fun _ _ _ hi _ hf ht => hi.step hf ht)
  (fun _ _ _ hi hs ht => hi.keepsNewest_iff hs ht)
    events (opened_inv hsize (Nat.le_of_lt_succ bufsz.isLt)) (opened_keepsNewest _)

def wholeBuffers : List SerialDmaEvent :=
  [.dmaDone [1, 2, 3, 4], .read 3, .dmaDone [5, 6], .read 9, .dmaDone [7, 8, 9, 10], .dmaDone [11, 12, 13, 14], .read 4]

theorem serial_dma_keeps_newest_iff_whole :
    1 ≤ (4 : BitVec 16).toNat ∧
      (StatesAlong (step (4 : BitVec 16).toNat) (KeepsNewest (4 : BitVec 16).toNat) opened wholeBuffers ↔
        StepsAlong (step (4 : BitVec 16).toNat) (Fits (4 : BitVec 16).toNat) opened wholeBuffers) :=
  ⟨by decide, serial_dma_keeps_newest_iff 4 (by decide) wholeBuffers⟩

theorem serial_dma_full_loses :
    ∃ s, run (step 4) opened [.dmaDone [1, 2, 3, 4], .dmaDone [5]] = some s ∧ s.unread = [2, 3, 4, 5] ∧
      s.fifo.calcRecvedLen 4 = 1 ∧ ¬ s.KeepsNewest 4 := by
  refine ⟨_, rfl, by decide, by decide, ?_⟩
  intro h
  exact absurd h.calc_eq (by decide)

end SerialDma

end RtThread
