import Rendezvous.Distinct
import Rendezvous.Id
import Rendezvous.Name

/-!
# Terms

A term is what a process does next on one of its channels. Terms without a continuation end the
current step; the process submits its next term once it has one.

- `Term.via` is the placeholder a term acts on, `Term.operation` what it does there;
- `Term.sigs` lists the signatures a term may instantiate;
- `Term.text` is how a term is shown.
-/

namespace Rendezvous

/-- The behaviour of a process, in its own placeholders. -/
inductive Term where
  /-- Closes the provided channel. -/
  | close (via : Sym)
  /-- Waits for a channel to be closed. -/
  | wait (via : Sym) (cont : Term)
  /-- Sends the channel bound to `value`. -/
  | send (via value : Sym)
  /-- Receives a channel and binds it to `value`. -/
  | recv (via value : Sym) (cont : Term)
  /-- Picks a label. -/
  | lab (via label : Sym)
  /-- Continues by the label that is picked. -/
  | case (via : Sym) (conts : List (Sym × Term))
  /-- Joins the client of `via` with the provider of `target`. -/
  | fwd (via target : Sym)
  /-- Instantiates a signature in a new pool below the acting one. -/
  | call (via : Sym) (sig : Id) (values : List Sym) (cont : Term)
  /-- Instantiates a signature in an existing pool. -/
  | spawn (via : Sym) (sig : Id) (values : List Sym) (pool : Id) (cont : Term)
  /-- Asks for a shared channel. -/
  | acquire (via : Sym)
  /-- Grants a shared channel. -/
  | accept (via : Sym) (cont : Term)
  /-- Hands an acquired channel back. -/
  | detach (via : Sym)
  /-- Takes an acquired channel back. -/
  | release (via : Sym) (cont : Term)

/-- The kinds of term. -/
inductive Operation where
  | close | wait | send | recv | lab | case | fwd | call | spawn | acquire | accept | detach
  | release
deriving DecidableEq

/-- The word for an operation in messages. -/
def Operation.name : Operation → String
  | .close => "close"
  | .wait => "wait"
  | .send => "send"
  | .recv => "recv"
  | .lab => "lab"
  | .case => "case"
  | .fwd => "fwd"
  | .call => "call"
  | .spawn => "spawn"
  | .acquire => "acquire"
  | .accept => "accept"
  | .detach => "detach"
  | .release => "release"

namespace Term

/-- The placeholder a term acts on. -/
def via : Term → Sym
  | .close via | .wait via _ | .send via _ | .recv via _ _ | .lab via _ | .case via _
  | .fwd via _ | .call via _ _ _ | .spawn via _ _ _ _ | .acquire via | .accept via _
  | .detach via | .release via _ => via

/-- What a term does. -/
def operation : Term → Operation
  | .close _ => .close
  | .wait .. => .wait
  | .send .. => .send
  | .recv .. => .recv
  | .lab .. => .lab
  | .case .. => .case
  | .fwd .. => .fwd
  | .call .. => .call
  | .spawn .. => .spawn
  | .acquire _ => .acquire
  | .accept .. => .accept
  | .detach _ => .detach
  | .release .. => .release

/-! ## Signatures -/

mutual

/-- The signatures a term refers to, in order and with repetitions. -/
def mentions : Term → List Id
  | .close _ | .send .. | .lab .. | .fwd .. | .acquire _ | .detach _ => []
  | .wait _ cont | .recv _ _ cont | .accept _ cont | .release _ cont => cont.mentions
  | .case _ conts => mentionsOfBranches conts
  | .call _ sig _ cont | .spawn _ sig _ _ cont => sig :: cont.mentions

/-- The signatures the branches of a case refer to. -/
def mentionsOfBranches : List (Sym × Term) → List Id
  | [] => []
  | (_, cont) :: rest => cont.mentions ++ mentionsOfBranches rest

end

/-- The signatures a term refers to, each once, by first mention. -/
def sigs (t : Term) : List Id := distinct t.mentions

/-! ## Order of labels -/

mutual

/-- Every case in the term lists distinct labels in increasing order. -/
def Ordered : Term → Prop
  | .close _ | .send .. | .lab .. | .fwd .. | .acquire _ | .detach _ => True
  | .wait _ cont | .recv _ _ cont | .accept _ cont | .release _ cont => cont.Ordered
  | .case _ conts => (conts.map Prod.fst).Pairwise (· < ·) ∧ OrderedBranches conts
  | .call _ _ _ cont | .spawn _ _ _ _ cont => cont.Ordered

/-- Every branch of a case is `Ordered`. -/
def OrderedBranches : List (Sym × Term) → Prop
  | [] => True
  | (_, cont) :: rest => cont.Ordered ∧ OrderedBranches rest

end

/-! ## Display -/

mutual

/-- A term as it is shown. -/
def text : Term → String
  | .close via => "close " ++ via
  | .wait via cont => "wait " ++ via ++ "; " ++ cont.text
  | .send via value => "send " ++ via ++ "(" ++ value ++ ")"
  | .recv via value cont => "recv " ++ via ++ "(" ++ value ++ "); " ++ cont.text
  | .lab via label => via ++ "." ++ label
  | .case via conts => "case " ++ via ++ " \x7b" ++ branchesText conts ++ " \x7d"
  | .fwd via target => "fwd " ++ via ++ " " ++ target
  | .call via sig values cont =>
    "call " ++ via ++ " <- " ++ sig.short ++ "(" ++ ", ".intercalate values ++ "); " ++ cont.text
  | .spawn via sig values pool cont =>
    "spawn " ++ via ++ " <- " ++ sig.short ++ "(" ++ ", ".intercalate values ++ ") @" ++
      pool.short ++ "; " ++ cont.text
  | .acquire via => "acquire " ++ via
  | .accept via cont => "accept " ++ via ++ "; " ++ cont.text
  | .detach via => "detach " ++ via
  | .release via cont => "release " ++ via ++ "; " ++ cont.text

/-- The branches of a case, with commas between them. -/
def branchesText : List (Sym × Term) → String
  | [] => ""
  | (label, cont) :: rest => " " ++ label ++ " => " ++ cont.text ++ moreBranchesText rest

/-- The branches after the first, each behind a comma. -/
def moreBranchesText : List (Sym × Term) → String
  | [] => ""
  | (label, cont) :: rest => ", " ++ label ++ " => " ++ cont.text ++ moreBranchesText rest

end

end Term

end Rendezvous
