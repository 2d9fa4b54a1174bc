import EngineBridge.Scenario.Idle
import EngineBridge.Scenario.Play
import EngineBridge.Queue.Exercise
import EngineBridge.Queue.Operations
import EngineBridge.Queue.Session
import EngineBridge.Proofs.Leaves
import EngineBridge.Proofs.Served
import EngineBridge.Proofs.Serving
import EngineBridge.Proofs.Course
import EngineBridge.Proofs.Turns
import EngineBridge.Proofs.Panics
import EngineBridge.Proofs.Lifecycle
import EngineBridge.Proofs.Reach
import EngineBridge.Proofs.Deeds
import EngineBridge.Proofs.Finalized
import EngineBridge.Proofs.Calm
import EngineBridge.Proofs.Contained
import EngineBridge.Proofs.Completion
import EngineBridge.Proofs.Reuse
import EngineBridge.Proofs.Queue
import EngineBridge.Proofs.Closures
import EngineBridge.Proofs.Resumption
import EngineBridge.Proofs.Tokens
import EngineBridge.Proofs.Fifo
import EngineBridge.Proofs.Custody
import EngineBridge.Proofs.Tickless
import EngineBridge.Proofs.Order
import EngineBridge.Proofs.Ticking
import EngineBridge.Proofs.Stumbling
import EngineBridge.Proofs.Unwinding
import EngineBridge.Proofs.Live
import EngineBridge.Proofs.Forestalled
import EngineBridge.Proofs.Ownership
import EngineBridge.Proofs.Response
import EngineBridge.Proofs.Responding
import EngineBridge.Proofs.Protocol
import EngineBridge.Proofs.Errands
import EngineBridge.Proofs.Losses
import EngineBridge.Proofs.EventLoop
import EngineBridge.Proofs.Wakeups
import EngineBridge.Proofs.Strays
import EngineBridge.Proofs.Handlers
import EngineBridge.Proofs.Resting
import EngineBridge.Proofs.Loop
import EngineBridge.Proofs.Acts
import EngineBridge.Proofs.Targets
import EngineBridge.Proofs.Peers
import EngineBridge.Proofs.Likeness
import EngineBridge.Proofs.Uniform
import EngineBridge.Proofs.Application
import EngineBridge.Proofs.Offloads
import EngineBridge.Proofs.Standing
import EngineBridge.Proofs.Offloading
import EngineBridge.Proofs.Answering
import EngineBridge.Proofs.Issuing
import EngineBridge.Proofs.Frame
import EngineBridge.Proofs.Confined
import EngineBridge.Proofs.Deliveries
import EngineBridge.Proofs.Numerals
import EngineBridge.Proofs.ZeroRuns
import EngineBridge.Proofs.Addresses
import EngineBridge.Proofs.PeerText
import EngineBridge.Proofs.Disposal
import EngineBridge.Proofs.Exercise
import EngineBridge.Proofs.Refusals
import EngineBridge.Proofs.Handover
import EngineBridge.Proofs.Acceptance
import EngineBridge.Proofs.FilterText
import EngineBridge.Proofs.Routing
import EngineBridge.Proofs.Decoding
import EngineBridge.Proofs.HeaderNames
import EngineBridge.Proofs.Memory
import EngineBridge.Proofs.Chronicles
import EngineBridge.Proofs.Capacity
import EngineBridge.Proofs.Laps
