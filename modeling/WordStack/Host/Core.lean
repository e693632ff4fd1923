import WordStack.Host.Core.Events
import WordStack.Host.Core.Lists
import WordStack.Host.Core.Numbers
import WordStack.Host.Core.Texts

/-!
# The core module

The types that every program finds in the namespace `System`.
-/

namespace WordStack

namespace CoreModule

/-- The access flags as numbers. -/
def bindingFlags : TypeDescriptor :=
  AccessFlags.named.foldl
    (fun d (name, flag) =>
      d.field name .ofType fun _ => pure (some (.integer (Int64.ofNat flag.bits.toNat))))
    { type := .core "BindingFlags" }

/-- The operators by the names that the host has for them. -/
def expressionType : TypeDescriptor :=
  Operator.all.foldl
    (fun d op => d.field op.hostName .ofType fun _ => pure (some (.symbol op.hostName)))
    { type := .core "ExpressionType" }

/-- Callbacks that take and return nothing. -/
def action : TypeDescriptor :=
  TypeDescriptor.delegating { type := .core "Action" } ⟨[], none⟩

/-- Callbacks that take a value and return one. -/
def func : TypeDescriptor :=
  TypeDescriptor.delegating { type := .core "Func" } ⟨[.core "Object"], some (.core "Object")⟩

end CoreModule

open CoreModule in
/-- The core module. -/
def coreModule : HostModule where
  name := "core"
  types := #[math, string, list, int64, double, boolean, { type := .core "Void" },
    { type := .core "Object" }, stringBuilder, signal, bindingFlags, expressionType, action, func]

end WordStack
