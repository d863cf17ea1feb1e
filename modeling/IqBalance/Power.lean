/-!
Powers of counts. The length of a transform is a power of two, and `2 ^ m` is to
be one and the same term wherever it is written: the power of the core library,
also in modules that see another instance of it.
-/

attribute [instance (2000), default_instance (20000)] instPowNat
