import TreeSieve.Main
import TreeSieve.Proofs.Path.Rooted
import TreeSieve.Proofs.Rule.Rulebook
import TreeSieve.Proofs.Walk.Always
import TreeSieve.Proofs.Walk.Step
import TreeSieve.Proofs.Walk.Front
import TreeSieve.Proofs.Walk.Finality
import TreeSieve.Proofs.Pattern.Matching
import TreeSieve.Proofs.Pattern.Fitting
import TreeSieve.Proofs.Pattern.Cutting
import TreeSieve.Proofs.Rule.Cover
import TreeSieve.Proofs.Sieve.Built
import TreeSieve.Proofs.Sieve.Pruning
import TreeSieve.Proofs.Walk.Breadth
import TreeSieve.Proofs.Walk.Recursive
import TreeSieve.Proofs.Walk.Refinement
import TreeSieve.Proofs.Files.Shown
import TreeSieve.Proofs.Sieve.Written
import TreeSieve.Proofs.Walk.Exploring
import TreeSieve.Proofs.Walk.Exactness
import TreeSieve.Proofs.Walk.Tour
import TreeSieve.Proofs.Walk.Counts
import TreeSieve.Proofs.Files.Lookup
import TreeSieve.Proofs.Walk.Standing
import TreeSieve.Proofs.Walk.Termination
import TreeSieve.Proofs.Walk.Reordering
import TreeSieve.Proofs.Files.Rewriting
import TreeSieve.Proofs.Walk.Reaching
import TreeSieve.Proofs.Walk.Locality
import TreeSieve.Proofs.Walk.Reentry
import TreeSieve.Proofs.Walk.Ending
import TreeSieve.Proofs.Walk.Budget
import TreeSieve.Proofs.Walk.Recording
import TreeSieve.Proofs.Walk.Faults
import TreeSieve.Proofs.Walk.Schedule
import TreeSieve.Proofs.Walk.Depth
import TreeSieve.Proofs.Walk.Metadata
import TreeSieve.Proofs.Files.Noting
import TreeSieve.Proofs.Walk.Calling
import TreeSieve.Proofs.Walk.Once
import TreeSieve.Proofs.Files.Disk
import TreeSieve.Proofs.Walk.Indoors
import TreeSieve.Proofs.Listing.Within
import TreeSieve.Proofs.Files.Holding
import TreeSieve.Proofs.Walk.Moved
import TreeSieve.Proofs.Walk.Held
import TreeSieve.Proofs.Walk.Alike
import TreeSieve.Proofs.Cli.Agreement
import TreeSieve.Proofs.Sieve.Intake
import TreeSieve.Proofs.Rule.Remembering
import TreeSieve.Proofs.Walk.Unbroken
import TreeSieve.Proofs.Pattern.Compiling
import TreeSieve.Proofs.Pattern.Laying
import TreeSieve.Proofs.Pattern.Grammar
import TreeSieve.Proofs.Pattern.Spelling
import TreeSieve.Proofs.Rule.Meaning
import TreeSieve.Proofs.Path.Below
import TreeSieve.Proofs.Path.Normal
import TreeSieve.Proofs.Path.Containment
import TreeSieve.Proofs.Rule.Directories
import TreeSieve.Proofs.Pattern.Levels
import TreeSieve.Proofs.Rule.Levels
import TreeSieve.Proofs.Rule.Escaping
import TreeSieve.Proofs.Sieve.Splitting
import TreeSieve.Proofs.Sieve.Decoding
import TreeSieve.Proofs.Sieve.Joined
import TreeSieve.Proofs.Sieve.Oversize
import TreeSieve.Proofs.Walk.RealPaths
import TreeSieve.Proofs.Walk.Apart
import TreeSieve.Proofs.Listing.Nesting
import TreeSieve.Proofs.Walk.Deepest
import TreeSieve.Proofs.Listing.Limited
import TreeSieve.Proofs.Path.Ancestry
import TreeSieve.Proofs.Pattern.Trimming
