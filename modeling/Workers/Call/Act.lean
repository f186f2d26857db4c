import Workers.Duration
import Workers.World.Basic
/-! # Acts

What a piece of running code does with its context: finitely many questions, each of which the
world answers at once, and in between checks of the hook, waits and calls.  An act ends with a
value or in a panic.  A loop without end is not an act; code that loops is made of acts in turn.
-/
namespace Workers

/-- Why a computation ended without values.  A stop is no fault: nothing can catch it. -/
inductive Unwind where
  | fault (fault : Fault)
  | stop
  deriving DecidableEq, Inhabited

abbrev Outcome := Except Unwind (List Value)

/-- What the world answers at once. -/
inductive Query where
  | newTable
  | newShared
  | get (table key : Value)
  | set (table key value : Value)
  | length (table : Value)
  | share (value : Value)
  | paths
  | hookStep
  /-- Counts one instruction. -/
  | count
  | destroy
  | notify (n : NotifierId)
  | isNotified (n : NotifierId)
  | newNotifier
  | retarget (target : Option NotifierId)

abbrev Query.Answer : Query → Type
  | newTable | newShared => Value
  | get .. | share .. => Except Fault Value
  | set .. => Except Fault Unit
  | length .. => Except Fault Nat
  | paths => String × String
  | hookStep => UInt32
  | count => Count
  | destroy | notify .. => Unit
  | isNotified .. => Bool
  | newNotifier => NotifierId
  | retarget .. => Option NotifierId

inductive Act (α : Type) where
  | done (a : α)
  | query (q : Query) (k : q.Answer → Act α)
  | check (kind : CheckKind) (k : Bool → Act α)
  | wait (n : NotifierId) (d : Duration) (k : Bool → Act α)
  | call (routine : Routine) (arguments : List Value) (k : Outcome → Act α)
  | panic (text : String)

namespace Act

variable {α β : Type}

def bind (a : Act α) (f : α → Act β) : Act β :=
  match a with
  | done a => f a
  | query q k => query q fun answer => (k answer).bind f
  | check kind k => check kind fun stopped => (k stopped).bind f
  | wait n d k => wait n d fun notified => (k notified).bind f
  | call routine arguments k => call routine arguments fun outcome => (k outcome).bind f
  | panic text => panic text

instance : Monad Act where
  pure := done
  bind := bind

def ask (q : Query) : Act q.Answer := query q done

end Act

namespace World

/-- Stores a value and loads it again. -/
def share (w : World) (c : ContextId) (value : Value) : Except Fault Value × World :=
  let context := w.context c
  match value.store w.store w.memory.heap context.registry with
  | (.error fault,store) => (.error fault,w.setStore store)
  | (.ok object,store) =>
    match context.load store object with
    | .ok (value,context,store) =>
      (.ok value,(w.setStore (store.drop [object])).setContext c context)
    | .error fault => (.error fault,w.setStore (store.drop [object]))

def answer (w : World) (c : ContextId) : (q : Query) → q.Answer × World
  | .newTable =>
    let (value,memory) := w.memory.newTable
    (value,{ w with memory })
  | .newShared =>
    let (value,context,store) := (w.context c).newShared w.store
    (value,(w.setStore store).setContext c context)
  | .get table key =>
    let (outcome,context,store) := (w.context c).get w.memory table key
    (outcome,(w.setStore store).setContext c context)
  | .set table key value =>
    let (outcome,memory) := (w.context c).set w.memory table key value
    (outcome,{ w with memory })
  | .length table => ((w.context c).length w.memory table,w)
  | .share value => w.share c value
  | .paths => (((w.context c).path,(w.context c).cpath),w)
  | .hookStep => ((w.context c).hookStep,w)
  | .count =>
    let (count,context) := (w.context c).countInstruction
    (count,w.setContext c context)
  | .destroy => ((),w.destroy c)
  | .notify n => ((),w.notify n)
  | .isNotified n => (w.isNotified n,w)
  | .newNotifier => w.addNotifier
  | .retarget target => w.retarget (w.context c).hook target

end World

end Workers
