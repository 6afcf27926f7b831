import Visibility.Service.Basic

/-!
Workers: getting a key, handling it, and settling what becomes of it.

A key that was handled is forgotten. One that failed comes back until it has used up its retries, and
then is given up. Either way the worker releases the key afterwards.
-/

namespace Visibility

namespace Worker

/-- A worker on one key, by what it does next. -/
inductive Phase where
  | get (g : Getter ChangeKey)
  | handle (key : ChangeKey) (call : Call)
  | settle (key : ChangeKey) (succeeded : Bool)
  | release (key : ChangeKey)
  /-- Tells whether there may be more keys. -/
  | done (more : Bool)

end Worker

/-- A worker, which waits under its ticket. -/
structure Worker where
  ticket : Nat
  phase : Worker.Phase

namespace Worker

def start (ticket : Nat) : Worker := ⟨ticket, .get .enter⟩

def query? (w : Worker) : Option Query :=
  match w.phase with
  | .handle _ call => call.query?
  | _ => none

/-- Forgets a key that succeeded, and lets one that failed come back or gives it up. -/
def settle (config : Config) (now : Nat) (q : Queue ChangeKey) (key : ChangeKey)
    (succeeded : Bool) : Queue ChangeKey :=
  if succeeded then q.forget key
  else if q.requeues key < config.maxRetries then q.retry now key
  else q.drop key

def step (config : Config) (now : Nat) (m : Moment) (s : Service) (w : Worker) :
    Service × Worker × Option Effect :=
  match w.phase with
  | .get g =>
      match g.step w.ticket s.queue with
      | (q, .got key) => ({ s with queue := q }, { w with phase := .handle key key.call }, none)
      | (q, .closed) => ({ s with queue := q }, { w with phase := .done false }, none)
      | (q, g) => ({ s with queue := q }, { w with phase := .get g }, none)
  | .handle key call =>
      let p := call.step m s.cache
      let phase : Phase := p.next.succeeded?.elim (.handle key p.next) (.settle key)
      ({ s with cache := p.cache }, { w with phase := phase }, p.effect)
  | .settle key succeeded =>
      ({ s with queue := settle config now s.queue key succeeded },
        { w with phase := .release key }, none)
  | .release key =>
      ({ s with queue := s.queue.release key }, { w with phase := .done true }, none)
  | .done _ => (s, w, none)

/-- Whether a worker has to be woken before it can go on. -/
def isStuck (s : Service) (w : Worker) : Bool :=
  match w.phase with
  | .get g => g.isStuck w.ticket s.queue
  | _ => false

end Worker

end Visibility
