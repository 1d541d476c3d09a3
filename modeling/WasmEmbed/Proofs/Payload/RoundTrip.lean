import WasmEmbed.Payload.Encoding
import WasmEmbed.Proofs.Payload.Base64
import WasmEmbed.Proofs.Payload.Deflate.Stream

/-!
# A payload is read back from its text

The text of a payload is the Base64 text of its bytes or of the stream that they are compressed to. Both
steps can be undone, so the text stands for the payload whatever its bytes are, and reading it never fails.
-/

namespace WasmEmbed.Payload

/-- Decoding gives back the payload that was encoded, with and without compression. -/
theorem decode_encode_payload (compress : Bool) (payload : List UInt8) :
    decode compress (encode compress payload) = .ok payload := by
  have htext : ∀ bytes,
      (Base64.decode (Base64.encode bytes)).mapError EncodingError.text = pure bytes := by
    intro bytes
    rw [Base64.decode_encode]
    rfl
  have hstream : (Deflate.decompress (Deflate.compress payload)).mapError EncodingError.stream =
      .ok payload := by
    rw [Deflate.decompress_compress]
    rfl
  rw [decode, encode, htext, pure_bind]
  cases compress with
  | false => rfl
  | true =>
      rw [if_pos rfl]
      exact hstream

end WasmEmbed.Payload
