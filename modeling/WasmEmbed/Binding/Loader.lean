import WasmEmbed.Binding.Error
import WasmEmbed.Config
import WasmEmbed.Script.Read

/-!
# The loading function

The function of a binding that gets hold of the module. Its new body decodes the text that the binding
imports from the aggregator, and inflates it if the module was compressed.

A binding may have been rewritten before. `previousName?` finds the name that the body of its loading
function decodes.
-/

namespace WasmEmbed.Binding

/-- The name of the loading function. -/
def loadName : Name := "load".toList

/-- A text with a gap for a name. -/
structure Template where
  front : List Char
  back : List Char

/-- The text with a name in its gap. -/
def Template.fill (t : Template) (name : Name) : List Char := t.front ++ name ++ t.back

/-- The name of the function that decodes text. -/
def decoderName : Name := "bytesFromBase64".toList

/-- The beginning of the loading function, up to the first constant that holds bytes. -/
def loaderHead : String :=
  "async function load(module, imports) \x7b\n" ++
  "    const bytesFromBase64 = (base64String) => " ++
  "Uint8Array.from(atob(base64String), (c) => c.charCodeAt(0));\n"

/-- The end of the loading function, behind the bytes of the module. -/
def loaderTail : String :=
  "    const instance = await WebAssembly.instantiate(wasmBytecode, imports);\n" ++
  "    return instance;\n" ++
  "\x7d\n"

/-- The loading function for a module that is embedded as it is. -/
def plainLoader : Template where
  front := (loaderHead ++ "    const wasmBytecode = bytesFromBase64(").toList
  back := (");\n" ++ loaderTail).toList

/-- The loading function for a compressed module. -/
def inflatingLoader : Template where
  front := (loaderHead ++ "    const compressed = bytesFromBase64(").toList
  back :=
    (");\n" ++
      "    const stream = new Blob([compressed]).stream()" ++
      ".pipeThrough(new DecompressionStream('deflate'));\n" ++
      "    const wasmBytecode = new Uint8Array(await new Response(stream).arrayBuffer());\n" ++
      loaderTail).toList

/-- The loading function that decodes the text of a name. -/
def loader (compressed : Bool) (importName : Name) : List Char :=
  (if compressed then inflatingLoader else plainLoader).fill importName

/-- The body of the loading function that decodes the text of a name. The name is put in as it is, so the
text is read anew: it may be no script, but a function that is found in it has a body. -/
def loaderBody (compressed : Bool) (importName : Name) : Except RewriteError (List Char) :=
  let text := loader compressed importName
  match Script.Outline.read? text with
  | none => .error .notAScript
  | some o =>
    match o.function? loadName with
    | none => .error .noLoader
    | some f => .ok (f.body.span.of text)

/-! ## The name that was decoded before -/

/-- The name between a call of the decoder and its closing parenthesis, if the text begins with such a
call. -/
def decodedName? (text : List Char) : Option Name :=
  let call := decoderName ++ ['(']
  if call.isPrefixOf text then
    let rest := text.drop call.length
    let name := rest.takeWhile isIdentifierPart
    if isIdentifier name && (rest.drop name.length).head? == some ')' then some name else none
  else none

/-- The name that the first call of the decoder decodes. -/
def previousName? : List Char → Option Name
  | [] => none
  | c :: rest => decodedName? (c :: rest) <|> previousName? rest

end WasmEmbed.Binding
