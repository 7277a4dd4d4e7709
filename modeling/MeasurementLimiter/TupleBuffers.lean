import MeasurementLimiter.FiveTuple

namespace MeasurementLimiter.FiveTuple

open Runs

variable {f : Frame} {i : ℕ}

/-- No read of a call goes behind the captured bytes, and no write of it behind `temp` or
`stringIP`. -/
def StaysInBuffers (f : Frame) : Prop := ∀ e, myCallback f ≠ .error e

theorem staysInBuffers_iff_ok : StaysInBuffers f ↔ ∃ lines, myCallback f = .ok lines := by
  rw [StaysInBuffers]
  cases myCallback f with
  | error e => simp
  | ok lines => simp

theorem Frame.read_ok_iff : (∃ b, f.read i = .ok b) ↔ i < f.bytes.length := by
  constructor
  · rintro ⟨b, hb⟩
    by_contra hlt
    rw [Frame.read, List.getElem?_eq_none (not_lt.mp hlt)] at hb
    cases hb
  · intro hlt
    exact ⟨_, Frame.read_eq hlt⟩

theorem Frame.readShort_lt {w : BitVec 16} (h : f.readShort i = .ok w) :
    i + 1 < f.bytes.length := by
  obtain ⟨_, -, hlow⟩ := bind_eq_ok.mp h
  obtain ⟨b, hb, -⟩ := bind_eq_ok.mp hlow
  exact Frame.read_ok_iff.mp ⟨b, hb⟩

theorem handleIp_caplen {lines : List TupleLine} (hlen : 34 ≤ f.len.toNat)
    (h : handleIp f = .ok lines) : 38 ≤ f.bytes.length := by
  unfold handleIp at h
  dsimp only at h
  rw [if_neg ((length_ge_iff (by omega)).mpr hlen)] at h
  simp only [bind_eq_ok] at h
  obtain ⟨_, -, _, -, _, -, _, -, _, -, _, -, _, -, _, -, _, hports, -⟩ := h
  exact Frame.readShort_lt hports

/-- Where `len` lets the packet pass, `handle_IP` stays in its buffers if and only if the
frame was captured up to the ports and the addresses are short. -/
theorem handleIp_ok_iff (hlen : 34 ≤ f.len.toNat) : (∃ lines, handleIp f = .ok lines) ↔
    38 ≤ f.bytes.length ∧ f.ShortOctets 26 ∧ f.ShortOctets 30 := by
  by_cases hcaplen : 38 ≤ f.bytes.length
  case neg =>
    constructor
    · rintro ⟨lines, h⟩
      exact absurd (handleIp_caplen hlen h) hcaplen
    · intro h
      exact absurd h.1 hcaplen
  obtain ⟨rest, hhandle⟩ := handleIp_eq hlen hcaplen
  rw [hhandle]
  by_cases hshort : f.ShortOctets 26 ∧ f.ShortOctets 30
  case neg => simp [hshort]
  simp [hshort, hcaplen]

theorem handleIp_truncated (hcaplen : 14 ≤ f.len.toNat) (hlen : f.len.toNat < 34) :
    ∃ lines, handleIp f = .ok lines := by
  have hshort := not_imp_comm.mp (length_ge_iff hcaplen).mp (by omega)
  unfold handleIp
  dsimp only
  rw [if_pos hshort]
  exact ⟨_, rfl⟩

/-- A call stays in its buffers if and only if it has no IPv4 packet to print, or that was
captured up to the ports and its addresses have no three digits before the last number. -/
theorem staysInBuffers_iff (h : f.bytes.length ≤ f.len.toNat) :
    StaysInBuffers f ↔ f.bytes.length < 14 ∨ f.bigEndian 12 ≠ 0x0800 ∨ f.len.toNat < 34 ∨
      38 ≤ f.bytes.length ∧ f.ShortOctets 26 ∧ f.ShortOctets 30 := by
  rw [staysInBuffers_iff_ok]
  by_cases hcaplen : f.bytes.length < 14
  case pos =>
    have hethernet : handleEthernet f = .ok ([.shortFrame], 0xffff#16) := if_pos hcaplen
    simp only [hcaplen, true_or, iff_true]
    exact ⟨[.shortFrame], by rw [myCallback, hethernet]; rfl⟩
  have hcallback := myCallback_eq (not_lt.mp hcaplen)
  by_cases hip : f.bigEndian 12 = 0x0800
  case neg =>
    rw [if_neg hip] at hcallback
    simp [hip, hcallback]
  rw [if_pos hip] at hcallback
  rw [hcallback]
  by_cases hlen : f.len.toNat < 34
  case pos => simp [hlen, handleIp_truncated (by omega) hlen]
  rw [handleIp_ok_iff (not_lt.mp hlen)]
  simp [hcaplen, hip, hlen]

theorem staysInBuffers_iff_sample : StaysInBuffers (frameSample 0x45#8 []) :=
  (staysInBuffers_iff (by decide)).mpr (.inr (.inr (.inr (by decide))))

def wideSample : Frame :=
  { frameSample 0x45#8 [] with bytes := (frameSample 0x45#8 []).bytes.set 26 192#8 }

def cutSample : Frame :=
  { frameSample 0x45#8 [] with bytes := (frameSample 0x45#8 []).bytes.take 34 }

/-- A long number is written past `temp`, and ports that were not captured are read. -/
theorem buffers_overrun :
    (wideSample.bytes.length = wideSample.len.toNat ∧ myCallback wideSample = .error .temp) ∧
    (cutSample.bytes.length ≤ cutSample.len.toNat ∧ myCallback cutSample = .error .read) ∧
    ¬∀ f : Frame, f.bytes.length ≤ f.len.toNat → StaysInBuffers f := by
  have hwide : myCallback wideSample = .error .temp := by decide +kernel
  have hcut : myCallback cutSample = .error .read := by decide +kernel
  refine ⟨⟨by decide, hwide⟩, ⟨by decide, hcut⟩, ?_⟩
  intro hall
  exact hall wideSample (by decide) _ hwide

end MeasurementLimiter.FiveTuple
