import Switchboard.Proofs.CharsetRoundTrip
import Switchboard.Proofs.InflatedDelivery
import Switchboard.Proofs.LineWire

namespace Switchboard

namespace LineCodec

open Utf8

/-- The codec that is built with the standard settings for texts. -/
def standard : LineCodec where
  config := {}
  hook := LineHook.text
  framer := { borders := .ofPattern [0x0A] }

theorem new_standard : new {} LineHook.text = .ok standard := rfl

/-- A text as it is written with the standard settings, without the delimiter. -/
def lineBytes (t : String) : Bytes := t.toList.flatMap encodeChar

def linesBytes (ts : List String) : Bytes := ts.flatMap fun t => lineBytes t ++ [0x0A]

def heardFrom (source : String) (ts : List String) : List Packet :=
  ts.map fun t => ⟨source, .text t⟩

theorem encode_lineBytes (t : String) : Charset.utf8.encode .strict t = .ok (lineBytes t) :=
  Charset.encode_strict_eq_ok.mpr ⟨fun _ _ => rfl, rfl⟩

theorem payloadBytes_text (t : String) : payloadBytes {} (.text t) = .ok (lineBytes t) :=
  Charset.encode_of_strict (encode_lineBytes t) .replace

theorem standard_encode (output : Outbox) (name t : String) (s : DelayService) :
    Codec.encode { standard with output } ⟨name, .text t⟩ s =
      (.ok (), { standard with output := (output.push (lineBytes t)).push [0x0A] }, s) :=
  encode_of_ok (payloadBytes_text t) s

theorem payload_lineBytes (t : String) :
    payload? {} LineHook.text (lineBytes t) = some (.text t) := by
  have decoded : Charset.utf8.decode .replace (stripped {} (lineBytes t)) = .ok t := by
    rw [stripped, if_neg (by simp)]
    exact Charset.decode_encode (encode_lineBytes t) .replace
  rw [payload?, decodeRecord]
  simp only [decoded]
  rfl

theorem newline_not_mem {t : String} (h : '\n' ∉ t.toList) : (0x0A : UInt8) ∉ lineBytes t := by
  intro hmem
  obtain ⟨c, hc, hmem⟩ := List.mem_flatMap.mp hmem
  have ten : (0x0A : UInt8).toNat = 10 := rfl
  by_cases one : c.toNat ≤ 0x7F
  · rw [encodeChar_eq, if_pos one] at hmem
    have heq := congrArg UInt8.toNat (List.mem_singleton.mp hmem)
    rw [UInt8.toNat_ofNat'] at heq
    have newline : c.toNat = 10 := by omega
    have : c = '\n' := by rw [← c.ofNat_toNat, newline]
    exact h (this ▸ hc)
  · have high := le_of_mem_encodeChar (Nat.lt_of_not_le one) hmem
    rw [ten] at high
    exact absurd high (by decide)

theorem linesBytes_cuts {ts : List String} (h : ∀ t ∈ ts, '\n' ∉ t.toList) :
    Cuts [0x0A] (linesBytes ts) (ts.map lineBytes) [] := by
  have split := Cuts.of_records (List.cons_ne_nil 0x0A []) (List.forall_mem_map.mpr fun t ht _ =>
    leftmostCut_singleton (newline_not_mem (h t ht)))
  rwa [List.flatMap_map] at split

theorem filterMap_lineBytes (ts : List String) :
    (ts.map lineBytes).filterMap (payload? {} LineHook.text) = ts.map .text := by
  rw [List.filterMap_map]
  exact List.filterMap_eq_map_iff_forall_eq_some.mpr fun t _ => payload_lineBytes t

/-- A fresh codec finds the texts in their bytes. -/
theorem standard_delivers (source : String) {ts : List String} (h : ∀ t ∈ ts, '\n' ∉ t.toList) :
    Delivers standard source (linesBytes ts) (heardFrom source ts) := by
  intro pieces ⟨later, hlater⟩
  obtain ⟨d, fresh, _⟩ := new_hasSeen new_standard rfl
  obtain rfl : [0x0A] = d := fresh.delimiter_eq.symm.trans rfl |>.symm
  obtain ⟨records, c, hdecode, seen⟩ := fresh.decodeChunks LineHook.text_blind source pieces
  rw [List.nil_append, List.nil_append] at seen
  have cuts := linesBytes_cuts h
  obtain ⟨more, _, _, whole, _⟩ := seen.decode LineHook.text_blind source later
  have all : records ++ more = ts.map lineBytes :=
    (whole.cuts.unique (by rw [hlater]; exact cuts)).1
  have heard : heardFrom source ts =
      (((records ++ more).filterMap (payload? {} LineHook.text)).map fun p => ⟨source, p⟩) := by
    rw [all, filterMap_lineBytes, List.map_map]
    rfl
  refine ⟨_, c, hdecode, ?_, fun heq => ?_⟩
  · rw [heard, List.filterMap_append, List.map_append]
    exact List.prefix_append ..
  · have last : records = ts.map lineBytes := (seen.cuts.unique (by rw [heq]; exact cuts)).1
    rw [last, filterMap_lineBytes, List.map_map]
    rfl

end LineCodec

end Switchboard
