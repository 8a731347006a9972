/-!
# Powers and sums

Powers of numbers and sums of lists of numbers are the built-in ones, also where the theory of
monoids is in scope: a definition is the same term wherever it is read.
-/

attribute [instance (2000)] instPowNat Zero.ofOfNat0

attribute [default_instance (20000)] instPowNat
