import DocComment.Json
import DocComment.Token

/-! # Listings of tokens

`Listing.tokens` has a line for each token: its span, its kind and its value in quotes, with the
spans and kinds in columns. `Json.ofTokens` holds the same as a JSON value. -/

namespace DocComment

/-- The line of a token. -/
def Listing.token (t : Token) : Text :=
  Text.padStart 5 (Text.ofNat t.span.start.toNat) ++ "..".toList ++
    Text.padEnd 5 (Text.ofNat t.span.stop.toNat) ++ ' ' :: Text.padEnd 14 t.kind.name ++
    ' ' :: Text.quote t.value ++ ['\n']

def Listing.tokens (ts : List Token) : Text := ts.flatMap token

def Json.ofToken (t : Token) : Json :=
  .record [("kind".toList, .text t.kind.name), ("start".toList, .number t.span.start.toNat),
    ("end".toList, .number t.span.stop.toNat), ("value".toList, .text t.value)]

def Json.ofTokens (ts : List Token) : Json := .list (ts.map ofToken)

end DocComment
