namespace ElementFields

structure BlockId where
  index : Nat
deriving DecidableEq, Repr, Ord

instance : ToString BlockId where
  toString b := s!"block {b.index}"

end ElementFields
