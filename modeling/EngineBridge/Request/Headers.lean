import EngineBridge.Text.Utf8

/-! Request headers as the engine has them, in bytes, and as application code sees them, in text. A
    header is found by its name in letters of any case, the first one winning. -/

namespace EngineBridge.Headers

/-- The headers in text. -/
def decode (hs : List (Bytes × Bytes)) : List (String × String) :=
  hs.map fun (name, value) => (Utf8.decode name, Utf8.decode value)

/-- The value of the first header in text that has the name. -/
def find? (hs : List (String × String)) (name : String) : Option String :=
  (hs.find? fun h => Ascii.sameText h.1 name).map Prod.snd

/-- The value, in text, of the first header in bytes that has the name. -/
def findRaw? (hs : List (Bytes × Bytes)) (name : String) : Option String :=
  (hs.find? fun h => Ascii.sameBytes h.1 (Utf8.encode name)).map fun h => Utf8.decode h.2

end EngineBridge.Headers
