/-!
# JobQueue.Power

How `b ^ n` is read for whole numbers: always as the core library's power, which
the kernel evaluates on literals. Algebra that is imported later brings powers of
its own; with the choice fixed here, a bound such as `2 ^ 64` is the same term in
every module.
-/

attribute [default_instance 20000, instance (20000)] instPowNat
