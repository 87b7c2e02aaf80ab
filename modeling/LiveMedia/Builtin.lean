/-! # Built-in instances

Powers of numbers and equality of byte arrays are read with the instances of the core library, also
where another library in scope brings instances of its own. -/

attribute [instance (high), default_instance (high + 1)] instPowNat
attribute [instance (high)] ByteArray.instDecidableEq
