import Visibility.Options

namespace Visibility

/-- The lines that say what the options are. -/
def Options.lines (opts : Options) : List String :=
  [ (OptionName.resyncPeriod, opts.resyncPeriodSecs),
    (.workers, opts.workers),
    (.fastDelay, opts.fastDelayMs),
    (.slowDelay, opts.slowDelayMs),
    (.maxFastAttempts, opts.maxFastAttempts),
    (.maxRetries, opts.maxRetries) ].map fun e => e.1.name ++ "=" ++ toString e.2

end Visibility

def main (arguments : List String) : IO UInt32 := do
  match Visibility.Options.parse arguments with
  | .ok opts =>
      for line in opts.lines do IO.println line
      return 0
  | .error e =>
      IO.eprintln ("error: " ++ e.message)
      return 2
