import Lox.Clox.Factor.Program
import Lox.Clox.Certificate
import Lox.Clox.Names
import Lox.Clox.Certify.Stmt
import Lox.Clox.Scanner
import Lox.Clox.Verifiable
import Lox.Clox.Errors
import Lox.Clox.StackBound
import Lox.Clox.HashTable
import Lox.ScannersAgree
import Lox.ComparisonsAgree
import Lox.InheritanceAgrees
import Lox.ParsersAgree
import Lox.RoundTrip
import Lox.AcceptedPrograms
import Lox.KeywordsAgree
import Lox.Clox.NanBoxing
import Lox.Clox.TableInvariant
import Lox.Clox.FusedCalls
import Lox.Clox.FailingInstructions
import Lox.Clox.Sessions
import Lox.Clox.Disassembler
import Lox.Clox.Construction
import Lox.Clox.Casts
import Lox.Jlox.Synchronize
import Lox.Jlox.CurrentEnvironment
import Lox.Jlox.Redeclarations
import Lox.Clox.Lexemes
import Lox.Clox.CompilerTotal
import Lox.Lib.Tracing
import Lox.Lib.LinkedList
import Lox.Lib.Rounds
import Lox.Clox.Memory.Objects
import Lox.Clox.Memory.Tables
import Lox.Clox.Memory.Renaming
import Lox.Clox.Memory.Collector
import Lox.Clox.Memory.Allocation
import Lox.Clox.Memory.Ledger
import Lox.Clox.Memory.Invariant
import Lox.Clox.Memory.Growth
import Lox.Clox.Memory.Operations
import Lox.Clox.Memory.Interning
import Lox.Clox.Memory.Chunks
import Lox.Clox.Memory.Effects
import Lox.Clox.Memory.Lifetime
import Lox.Clox.Memory.Similar
import Lox.Clox.Memory.Equivariance
import Lox.Clox.Memory.Transparency
import Lox.Clox.SharedVariables
import Lox.Clox.SharedSessions
