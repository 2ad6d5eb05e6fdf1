import MacRuby.ObjectIvars
import MacRuby.CatchThrow
import MacRuby.ConstantCache
import MacRuby.MethodCache
import MacRuby.MethodArity
import MacRuby.InlineOperators
import MacRuby.IntegerBits
import MacRuby.MarshalSharing
import MacRuby.BindingStack
import MacRuby.BlockArguments
import MacRuby.BlockReuse
import MacRuby.BlockScopes
import MacRuby.ModulePrecedence
import MacRuby.SplatArguments
import MacRuby.MethodOwners
import MacRuby.MethodVisibility
import MacRuby.IntegerRoundTrip
import MacRuby.IteratorBreaks
import MacRuby.SourceListings
import MacRuby.ConstantLookup
import MacRuby.MutexOwnership
import MacRuby.ThreadKill
import MacRuby.FormatTypes
import MacRuby.IncludeCycles
import MacRuby.RationalArithmetic
import MacRuby.LineReads
import MacRuby.FixnumOperators
import MacRuby.IntegerRounding
import MacRuby.FixnumSteps
import MacRuby.StrictParse
import MacRuby.ArraySlices
import MacRuby.QueueWaits
import MacRuby.SizedQueues
import MacRuby.ArraySamples
import MacRuby.ArrayUnions
import MacRuby.EnumerablePrefixes
import MacRuby.Permutations
import MacRuby.RecursiveArrays
import MacRuby.BitStrings
import MacRuby.Combinations
import MacRuby.EscapingVariables
import MacRuby.QuotedPrintable
import MacRuby.TextEncodings
import MacRuby.Utf8Text
import MacRuby.MultipleAssignment
import MacRuby.BlockKinds
import MacRuby.StringSearch
import MacRuby.StringPieces
