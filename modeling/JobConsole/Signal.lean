namespace JobConsole

inductive Signal
  | interrupt
  | terminate
  | quit
  deriving DecidableEq, Repr

def Signal.number : Signal → Nat
  | interrupt => 2
  | terminate => 15
  | quit => 3

end JobConsole
