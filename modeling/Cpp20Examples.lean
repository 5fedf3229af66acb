import Cpp20Examples.Lib.System
import Cpp20Examples.Lib.Monitor
import Cpp20Examples.Lib.Atomics
import Cpp20Examples.Lib.Framing
import Cpp20Examples.Lib.Arith
import Cpp20Examples.Lib.Driven
import Cpp20Examples.Coroutines.DatastreamParser.Parse
import Cpp20Examples.Coroutines.DatastreamParser.Delivery
import Cpp20Examples.Coroutines.Nested.CallStack
import Cpp20Examples.Coroutines.Nested.Machine
import Cpp20Examples.Coroutines.Nested.Chain
import Cpp20Examples.Coroutines.Nested.Simulation
import Cpp20Examples.Coroutines.Nested.Results
import Cpp20Examples.Concurrency.Queues.Programs
import Cpp20Examples.Concurrency.Queues.Phases
import Cpp20Examples.Concurrency.Queues.Fifo
import Cpp20Examples.Concurrency.Queues.Main
import Cpp20Examples.Concurrency.Queues.Wakeup
import Cpp20Examples.Concurrency.Queues.MonitorObject
import Cpp20Examples.Concurrency.PingPong.Rounds
import Cpp20Examples.Concurrency.PingPong.OneFlag
import Cpp20Examples.Concurrency.PingPong.ConditionVariable
import Cpp20Examples.Concurrency.PingPong.Solution
import Cpp20Examples.Concurrency.PingPong.Baton
import Cpp20Examples.Concurrency.PingPong.TwoTokens
import Cpp20Examples.Lib.Machine
import Cpp20Examples.Lib.Coroutine
import Cpp20Examples.Lib.Transfer
import Cpp20Examples.Lib.Container
import Cpp20Examples.Lib.Tasks
import Cpp20Examples.Lib.Slots
import Cpp20Examples.Coroutines.Awaitable
import Cpp20Examples.Coroutines.StateMachine.CoState
import Cpp20Examples.Coroutines.StateMachine.Stepping
import Cpp20Examples.Coroutines.StateMachine.CallTree
import Cpp20Examples.Concurrency.Schedulers.Schedule
import Cpp20Examples.Concurrency.Schedulers.Conservation
import Cpp20Examples.Concurrency.Schedulers.Priority
import Cpp20Examples.Concurrency.Schedulers.Ageing
import Cpp20Examples.Concurrency.ActiveObject.Main
import Cpp20Examples.Coroutines.CooperativeTasks
import Cpp20Examples.Coroutines.Asynchrony.Scheduler
import Cpp20Examples.Coroutines.Asynchrony.Pending
import Cpp20Examples.Coroutines.Asynchrony.Termination
import Cpp20Examples.Coroutines.CoroutineChat
import Cpp20Examples.Lib.Threads
import Cpp20Examples.Lib.SharedMutex
import Cpp20Examples.Lib.Barrier
import Cpp20Examples.Lib.Linearizable
import Cpp20Examples.Lib.RoundRobin
import Cpp20Examples.Concurrency.ProducerConsumer
import Cpp20Examples.Coroutines.TaskScheduler.Schedule
import Cpp20Examples.Coroutines.TaskScheduler.RoundRobin
import Cpp20Examples.Coroutines.TaskScheduler.Driver
import Cpp20Examples.Concurrency.Singleton
import Cpp20Examples.Concurrency.FetchMult
import Cpp20Examples.Concurrency.BreakingInvariant.Solved
import Cpp20Examples.Concurrency.BreakingInvariant.Atomic
import Cpp20Examples.Concurrency.AtomicSharedPtr
import Cpp20Examples.Concurrency.Summation.SumUp
import Cpp20Examples.Concurrency.Summation.Parallel
import Cpp20Examples.Concurrency.Summation.ThreadLocal
import Cpp20Examples.Coroutines.GeneratePrimes
import Cpp20Examples.Coroutines.Handles.OwningHandle
import Cpp20Examples.Coroutines.Handles.UniqueCoroHandle
import Cpp20Examples.Concurrency.AudioDataResult
import Cpp20Examples.Concurrency.ReaderWriterLock
import Cpp20Examples.Concurrency.FullTimePartTimeWorkers
import Cpp20Examples.Concurrency.RandomInit
import Cpp20Examples.Concurrency.DotProduct
import Cpp20Examples.Concurrency.PackagedTask
import Cpp20Examples.Concurrency.ProducerConsumer.Delivery
import Cpp20Examples.Coroutines.Generators.Designs
import Cpp20Examples.Coroutines.Generators.Interleaved
import Cpp20Examples.Coroutines.Generators.PullGenerators
import Cpp20Examples.Coroutines.Generators.YieldLoops
import Cpp20Examples.Coroutines.Functions
import Cpp20Examples.Coroutines.Handles.MoveOnlyGenerator
import Cpp20Examples.Coroutines.Generators.GetNext
import Cpp20Examples.Coroutines.Generators.Fibonacci
import Cpp20Examples.CompileTime.MergeValue
import Cpp20Examples.Concurrency.Schedulers.Stack
import Cpp20Examples.Coroutines.StateMachine.Termination
import Cpp20Examples.Coroutines.Nested.Propagation
import Cpp20Examples.Concurrency.MemoryOrders.Counter
import Cpp20Examples.Concurrency.MemoryOrders.OngoingOptimisation
import Cpp20Examples.Concurrency.MemoryOrders.SpinLock
import Cpp20Examples.Concurrency.MemoryOrders.SharedWork
import Cpp20Examples.Concurrency.MemoryOrders.Consume
import Cpp20Examples.Concurrency.MemoryOrders.DoubleChecked
import Cpp20Examples.Concurrency.MemoryOrders.Hazards
import Cpp20Examples.Concurrency.ParallelAlgorithms
import Cpp20Examples.Concurrency.Workers.BossWorkers
import Cpp20Examples.Concurrency.Workers.ArriveAndWait
import Cpp20Examples.Concurrency.Workers.BossWorker
import Cpp20Examples.Concurrency.UniqueLock
import Cpp20Examples.Concurrency.StartJobOnThread
import Cpp20Examples.Concurrency.StopTokens.InvokeCallbackOutputs
