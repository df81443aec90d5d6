import Mathlib.Logic.Basic

/-!
The fatal-error hook of `util.c` and the allocation wrappers that report
through it.

`__libconfig_fatal_error_func` holds the function `libconfig_fatal_error`
calls. It starts as `libconfig_fatal_error_handler`, which writes the message
to standard error and aborts, and `libconfig_set_fatal_error_func` replaces it,
`NULL` putting the handler back. `libconfig_malloc`, `libconfig_calloc` and
`libconfig_realloc` call it when the C library's allocator returns `NULL`, and
then return what the allocator returned. So they return `NULL` exactly when the
allocation failed and the installed function returned: never with the handler,
possibly with a function a caller installed.

The allocator is a parameter, `none` standing for `NULL`; what is written to
standard error before the process ends is the text `Outcome.aborts` carries.
-/

namespace LibConfig

/-- What a call does: it returns, or the process ends having written `stderr`
to standard error. -/
inductive Outcome (α : Type) where
  | returns (a : α)
  | aborts (stderr : String)
  deriving DecidableEq

/-- A fatal-error function, as what a call of it on a message does. -/
abbrev FatalErrorFunc := String → Outcome Unit

/-- `libconfig_fatal_error_handler`: writes the message to standard error,
then `abort()`. -/
def libconfigFatalErrorHandler : FatalErrorFunc := fun message => .aborts message

/-- `libconfig_set_fatal_error_func`: the new value of
`__libconfig_fatal_error_func`. -/
def libconfigSetFatalErrorFunc (func : Option FatalErrorFunc) : FatalErrorFunc :=
  func.getD libconfigFatalErrorHandler

/-- `libconfig_fatal_error`, with `fatalErrorFunc` the installed function. -/
def libconfigFatalError (fatalErrorFunc : FatalErrorFunc) (message : String) : Outcome Unit :=
  fatalErrorFunc message

/-- `__libconfig_malloc_failure_message`. -/
def libconfigMallocFailureMessage : String := "\x07libconfig: memory allocation failure\n"

/-- What the three wrappers do with the pointer the allocator returned. -/
def checkAlloc (fatalErrorFunc : FatalErrorFunc) (ptr : Option ℕ) : Outcome (Option ℕ) :=
  match ptr with
  | some p => .returns (some p)
  | none =>
    match libconfigFatalError fatalErrorFunc libconfigMallocFailureMessage with
    | .returns () => .returns none
    | .aborts e => .aborts e

/-- `libconfig_malloc`, with `malloc` the C library's. -/
def libconfigMalloc (malloc : ℕ → Option ℕ) (fatalErrorFunc : FatalErrorFunc) (size : ℕ) :
    Outcome (Option ℕ) :=
  checkAlloc fatalErrorFunc (malloc size)

/-- `libconfig_calloc`, with `calloc` the C library's. -/
def libconfigCalloc (calloc : ℕ → ℕ → Option ℕ) (fatalErrorFunc : FatalErrorFunc)
    (nmemb size : ℕ) : Outcome (Option ℕ) :=
  checkAlloc fatalErrorFunc (calloc nmemb size)

/-- `libconfig_realloc`, with `realloc` the C library's. -/
def libconfigRealloc (realloc : Option ℕ → ℕ → Option ℕ) (fatalErrorFunc : FatalErrorFunc)
    (ptr : Option ℕ) (size : ℕ) : Outcome (Option ℕ) :=
  checkAlloc fatalErrorFunc (realloc ptr size)

/-! ### A failed allocation

With the handler, a failed allocation ends the process with the failure
message; with an installed function that returns, the wrapper returns `NULL`. -/

example : libconfigMalloc (fun _ => none) (libconfigSetFatalErrorFunc none) 8 =
    .aborts libconfigMallocFailureMessage := rfl

example : libconfigMalloc (fun _ => none) (libconfigSetFatalErrorFunc (some fun _ => .returns ())) 8 =
    .returns none := rfl

end LibConfig
