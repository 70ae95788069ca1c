import GraphQLTools.Plan
import GraphQLTools.Resolve
import GraphQLTools.Completion
import GraphQLTools.Agreement
import GraphQLTools.Response
import GraphQLTools.Parallel
import GraphQLTools.Singleflight
import GraphQLTools.SingleflightInv
import GraphQLTools.SingleflightSafety
import GraphQLTools.Ast
import GraphQLTools.Surgery
import GraphQLTools.Walker
import GraphQLTools.Transformer
import GraphQLTools.Collect
import GraphQLTools.FragmentExpansion
import GraphQLTools.View
import GraphQLTools.Copies
import GraphQLTools.InterfaceExpansion
import GraphQLTools.FragmentDeletion
import GraphQLTools.JsonText
import GraphQLTools.ErrorsBuffer
import GraphQLTools.Variables
import GraphQLTools.AbstractFragments
import GraphQLTools.FragmentPass
import GraphQLTools.AbstractInterfaces
import GraphQLTools.InterfacePass
import GraphQLTools.ResponseText
import GraphQLTools.SingleflightLive
import GraphQLTools.ResponseWrite
import GraphQLTools.Engine
