import LeveldbDaemon.Queries
import LeveldbDaemon.Json.RoundTrip

/-!
# What survives replication

The master serialises an update or a portion with the encoders, and the slave reads it with the
decoders that the master read the original request with. The text means the same to both exactly
when every key and value is portable (`replicated_text_decodes_iff`). Well-formed UTF-8 without
zero bytes is; not everything that a request can store is.
-/

namespace LeveldbDaemon

open Lib Json

/-- **A pair list reaches the slave unchanged exactly when its keys and values are portable.** The
text is that of `Client_t::send` and of `_push_next_portion`. -/
theorem replicated_text_decodes_iff (data : Valmap2str) :
    decodeValmap2str (encodeValmap2str data) = .ok (data, []) ↔
      ∀ p ∈ data, PortableKey p.1 ∧ PortableValue p.2 := by
  have h := @decodeValmap2str_encode_iff data [] []
  rw [List.append_nil] at h
  rw [h]
  exact and_iff_left rfl

/-- A first byte of two in front of the closing quote of a value: the decoder takes the quote for
its second byte and stores both, the encoder escapes the quote, and the decoder then takes the
backslash instead and stops at the quote. The slave rejects the message. -/
theorem replicated_text_rejected :
    ¬∀ (text : Bytes) (data : Valmap2str) (rest : Bytes), decodeValmap2str text = .ok (data, rest) →
      decodeValmap2str (encodeValmap2str data) = .ok (data, []) := by
  intro hall
  have htext : decodeValmap2str (ascii "\x7b\"a\":\"" ++ [0xc3, 0x22] ++ ascii "\"\x7d") =
      .ok ([(ascii "a", [0xc3, 0x22])], []) := by
    decide +kernel
  exact absurd (hall _ _ _ htext) (by decide +kernel)

/-! ## Payloads -/

theorem changes_set_injective {data data' : Valmap2str}
    (h : (Payload.set data).changes = (Payload.set data').changes) : data = data' := by
  refine List.map_injective_iff.2 ?_ h
  intro a b hab
  injection hab with h₁ h₂
  exact Prod.ext h₁ h₂

theorem changes_del_injective {data data' : Vallist}
    (h : (Payload.del data).changes = (Payload.del data').changes) : data = data' := by
  refine List.map_injective_iff.2 ?_ h
  intro a b hab
  injection hab

theorem decodeParams_set_iff {data : Valmap2str} {text : Bytes} :
    decodeParams false text = some (Payload.set data).changes ↔
      decodeValmap2str text = .ok (data, []) := by
  simp only [decodeParams, Bool.false_eq_true, if_false]
  constructor
  · intro h
    split at h
    · rename_i data' hdec
      rw [hdec, changes_set_injective (Option.some.inj h)]
    · cases h
  · intro h
    rw [h]

theorem decodeParams_del_iff {data : Vallist} {text : Bytes} :
    decodeParams true text = some (Payload.del data).changes ↔
      decodeVallist text = .ok (data, []) := by
  simp only [decodeParams, if_true]
  constructor
  · intro h
    split at h
    · rename_i data' hdec
      rw [hdec, changes_del_injective (Option.some.inj h)]
    · cases h
  · intro h
    rw [h]

/-- The keys and values of a payload are portable. -/
def Payload.Portable : Payload → Prop
  | .set data => ∀ p ∈ data, PortableKey p.1 ∧ PortableValue p.2
  | .setRange data => ∀ p ∈ data, PortableKey p.1 ∧ PortableValue p.2
  | .del data => ∀ k ∈ data, PortableKey k

theorem Payload.roundTrips_iff (p : Payload) : p.RoundTrips ↔ p.Portable := by
  have hset (data : Valmap2str) :
      decodeParams false (encodeValmap2str data) = some (Payload.set data).changes ↔
        ∀ p ∈ data, PortableKey p.1 ∧ PortableValue p.2 := by
    have h := @decodeValmap2str_encode_iff data [] []
    rw [List.append_nil] at h
    refine decodeParams_set_iff.trans (h.trans ?_)
    exact and_iff_left rfl
  cases p with
  | set data => exact hset data
  | setRange data => exact hset data
  | del data =>
    have h := @decodeVallist_encode_iff data [] []
    rw [List.append_nil] at h
    refine decodeParams_del_iff.trans (h.trans ?_)
    exact and_iff_left rfl

end LeveldbDaemon
