import CssStyling.Demo

def main : IO UInt32 := do
  match CssStyling.Demo.report with
  | .ok lines =>
      lines.forM IO.println
      return 0
  | .error message =>
      IO.eprintln ("Error: " ++ message)
      return 1
