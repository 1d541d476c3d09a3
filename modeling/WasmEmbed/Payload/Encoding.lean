import WasmEmbed.Payload.Base64
import WasmEmbed.Payload.Deflate.Inflate
import WasmEmbed.Payload.Deflate.Stream

/-!
# The text of a payload

A payload is embedded in scripts as Base64 text, of its bytes or of the compressed stream that stands
for them. `decode` gives the payload back.
-/

namespace WasmEmbed.Payload

/-- The text of a payload, which may be compressed before. -/
def encode (compress : Bool) (payload : List UInt8) : List Char :=
  Base64.encode (if compress then Deflate.compress payload else payload)

/-- Why a text stands for no payload. -/
inductive EncodingError where
  | text (cause : Base64.Error)
  | stream (cause : Deflate.StreamError)
  deriving Repr, DecidableEq

/-- The text of an error. -/
def EncodingError.message : EncodingError → String
  | text cause => "Payload text is not valid base64: " ++ cause.message
  | stream cause => "Payload text is not valid deflate data: " ++ cause.message

/-- The payload that a text stands for. -/
def decode (compressed : Bool) (text : List Char) : Except EncodingError (List UInt8) := do
  let bytes ← (Base64.decode text).mapError .text
  if compressed then (Deflate.decompress bytes).mapError .stream else pure bytes

end WasmEmbed.Payload
