import Netty.Spec.Headers

/-!
# Fields that belong to a connection

`strip_connection_headers` of `src/proto/headers/multiplexed.rs`: what is taken out of a header map before it
is sent on HTTP/2 or HTTP/3.
-/

namespace Netty

namespace HeaderName

def keepAlive : HeaderName := ⟨ascii "keep-alive", by decide⟩
def proxyConnection : HeaderName := ⟨ascii "proxy-connection", by decide⟩
def upgrade : HeaderName := ⟨ascii "upgrade", by decide⟩

end HeaderName

/-- The fields that always belong to a connection, but for `Connection` itself and `TE`. -/
def connectionHeaders : List HeaderName := [.keepAlive, .proxyConnection, .transferEncoding, .upgrade]

/-- `HeaderMap::remove` with a text. A text that is no name is not found. -/
def HeaderMap.removeStr (headers : HeaderMap) (name : Bytes) : HeaderMap :=
  match HeaderName.fromBytes name with
  | some n => headers.remove n
  | none => headers

/-- `TE` may say `trailers` in a request. -/
def stripTe (headers : HeaderMap) (isRequest : Bool) : HeaderMap :=
  if isRequest then
    if (headers.get .te).any fun v => v.bytes ≠ ascii "trailers" then headers.remove .te else headers
  else headers.remove .te

/-- `remove(CONNECTION)` hands out the first of the values, and the names in it go, too. -/
def stripNominated (headers : HeaderMap) : HeaderMap :=
  match headers.get .connection with
  | none => headers
  | some value =>
    match value.toStr with
    | none => headers.remove .connection
    | some contents =>
      (splitComma contents).foldl (fun headers name => headers.removeStr (trim name)) (headers.remove .connection)

def stripConnectionHeaders (headers : HeaderMap) (isRequest : Bool) : HeaderMap :=
  stripNominated (stripTe (connectionHeaders.foldl HeaderMap.remove headers) isRequest)

end Netty
