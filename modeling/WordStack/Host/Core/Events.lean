import WordStack.Host.Registry

/-!
# Events of the core module

The type `Signal`: an event whose handlers are callbacks, run in the order in which they came.
-/

namespace WordStack.CoreModule

open HostProgram

/-- The handlers of a signal. -/
def signalHandlers? : Payload → Option (Array Callback)
  | .handlers callbacks => some callbacks
  | _ => none

/-- Run each handler with the same arguments. -/
def callEach (args : Array Value) : List Callback → HostProgram Unit
  | [] => pure ()
  | c :: cs => do
    let _ ← callBack c args
    callEach args cs

def signal : TypeDescriptor :=
  { type := .core "Signal" : TypeDescriptor }
    |>.constructor (some 0) (fun _ => some <$> newObject (.core "Signal") (.handlers #[]))
    |>.event "Raised" (fun inv => do
      let c ← inv.callback 0
      let (o, callbacks) ← inv.thisObject "Signal" signalHandlers?
      modifyStore (·.setPayload o (.handlers (callbacks.push c)))
      pure none)
    |>.procedure "Raise" .ofInstance (some 1) (fun inv => do
      let (_, callbacks) ← inv.thisObject "Signal" signalHandlers?
      let sender ← inv.this
      let v ← inv.arg 0
      callEach #[sender, v] callbacks.toList
      pure none)
    |>.property "HandlerCount" .ofInstance (fun inv => do
      let (_, callbacks) ← inv.thisObject "Signal" signalHandlers?
      pure (some (.integer (Int64.ofInt callbacks.size))))

end WordStack.CoreModule
